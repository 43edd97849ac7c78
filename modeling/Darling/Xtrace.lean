import Darling.Endian
import Darling.Tiling

/-!
# `xtrace/malloc.c`

A heap of blocks that `mmap` returns.  A block is a header and a list of fragments, each with a
header of its own; the free fragments of all blocks are on one list.  A pointer to a fragment is the
address of its header, and `memory` is `headerSize` bytes behind it.
-/

namespace Darling.Xtrace

def headerSize : ℕ := 40

/-- `sizeof(struct xtrace_memory_block)`, with the header of the first fragment. -/
def blockSize : ℕ := 56

def blockSizeMultiple : ℕ := 4096

structure Fragment where
  addr : ℕ
  size : ℕ
  inUse : Bool
  isMmapBase : Bool
deriving DecidableEq

/-- `xtrace_memory_fragment_set_size`: the size has the bits that the flags leave. -/
def Fragment.setSize (f : Fragment) (size : ℕ) : Fragment := { f with size := size % 2 ^ 62 }

def Fragment.init (addr size : ℕ) : Fragment := ⟨addr, size % 2 ^ 62, false, false⟩

def Fragment.length (f : Fragment) : ℕ := headerSize + f.size

structure Block where
  addr : ℕ
  size : ℕ
  fragmentList : List Fragment
deriving DecidableEq

structure Heap where
  blocks : List Block
  freeList : List ℕ
deriving DecidableEq

/-- A fragment with the links to its neighbours, those in front of it nearest first. -/
structure Place where
  left : List Block
  block : Block
  before : List Fragment
  frag : Fragment
  after : List Fragment
  right : List Block

def Place.fragmentList (p : Place) : List Fragment := p.before.reverse ++ p.frag :: p.after

def Place.blocks (p : Place) : List Block :=
  p.left ++ { p.block with fragmentList := p.fragmentList } :: p.right

section Locate

variable (addr : ℕ)

def locateFragment : List Fragment → List Fragment →
    Option (List Fragment × Fragment × List Fragment)
  | _, [] => none
  | before, f :: after =>
    if f.addr = addr then some (before, f, after) else locateFragment (f :: before) after

def locateBlock : List Block → List Block → Option Place
  | _, [] => none
  | left, b :: right =>
    match locateFragment addr [] b.fragmentList with
    | some (before, f, after) => some ⟨left, b, before, f, after, right⟩
    | none => locateBlock (left ++ [b]) right

def Heap.locate (h : Heap) : Option Place := locateBlock addr [] h.blocks

end Locate

def roundUp (size increment : ℕ) : ℕ :=
  if size &&& (increment - 1) = 0 then size else ((size ||| (increment - 1)) + 1) % 2 ^ 64

def shrinkFragment (p : Place) (freeList : List ℕ) (newSize : ℕ) : Place × List ℕ :=
  let remainingSize := wsub 64 p.frag.size newSize
  if headerSize < remainingSize then
    let newFragment := Fragment.init (p.frag.addr + headerSize + newSize)
      (remainingSize - headerSize)
    ({ p with frag := p.frag.setSize newSize, after := newFragment :: p.after },
      newFragment.addr :: freeList)
  else (p, freeList)

def viableFragment (h : Heap) (requiredSize : ℕ) : Option (Place × ℕ) :=
  h.freeList.foldl (fun viable addr =>
    match h.locate addr with
    | none => viable
    | some p =>
      if requiredSize < p.frag.size ∧ (∀ v ∈ viable, p.frag.size < v.2) then some (p, p.frag.size)
      else viable) none

def takeFragment (p : Place) (freeList : List ℕ) (requiredSize : ℕ) : Heap × ℕ :=
  let (p, freeList) := shrinkFragment p freeList requiredSize
  let p := { p with frag := { p.frag with inUse := true } }
  (⟨p.blocks, freeList.erase p.frag.addr⟩, p.frag.addr)

def newBlock (h : Heap) (base size : ℕ) : Place :=
  ⟨[], ⟨base, size, []⟩, [], { Fragment.init (base + 16) size with isMmapBase := true }, [],
    h.blocks⟩

/-- `allocate_fragment`; `mmap` is what the call of it returns if it gets to it, `none` for a
failure. -/
def allocateFragment (h : Heap) (requiredSize : ℕ) (mmap : Option ℕ) : Heap × Option ℕ :=
  match viableFragment h requiredSize with
  | some (p, _) =>
    let r := takeFragment p h.freeList requiredSize
    (r.1, some r.2)
  | none =>
    match mmap with
    | none => (h, none)
    | some base =>
      let allocationSize := roundUp requiredSize blockSizeMultiple
      let p := newBlock h base (wsub 64 allocationSize blockSize)
      let r := takeFragment p (p.frag.addr :: h.freeList) requiredSize
      (r.1, some r.2)

def mergePrev (p : Place) (freeList : List ℕ) : Option (Place × List ℕ) :=
  match p.before with
  | prev :: before =>
    if p.frag.isMmapBase = false ∧ prev.inUse = false then
      some ({ p with
        before := before
        frag := prev.setSize (prev.size + headerSize + p.frag.size) }, freeList.erase p.frag.addr)
    else none
  | [] => none

def mergeNext (p : Place) (freeList : List ℕ) : Option (Place × List ℕ) :=
  match p.after with
  | next :: after =>
    if next.inUse = false then
      some ({ p with
        frag := p.frag.setSize (p.frag.size + headerSize + next.size)
        after := after }, freeList.erase next.addr)
    else none
  | [] => none

def Place.neighbours (p : Place) : ℕ := p.before.length + p.after.length

section Merge

variable {p : Place} {freeList : List ℕ} {r : Place × List ℕ}

theorem mergePrev_cases (h : mergePrev p freeList = some r) : ∃ prev before,
    p.before = prev :: before ∧ p.frag.isMmapBase = false ∧ prev.inUse = false ∧
      r = ({ p with
        before := before
        frag := prev.setSize (prev.size + headerSize + p.frag.size) },
        freeList.erase p.frag.addr) := by
  unfold mergePrev at h
  rcases hb : p.before with _ | ⟨prev, before⟩
  · simp [hb] at h
  · simp only [hb] at h
    split_ifs at h with hc
    exact ⟨prev, before, rfl, hc.1, hc.2, (Option.some.inj h).symm⟩

theorem mergeNext_cases (h : mergeNext p freeList = some r) : ∃ next after,
    p.after = next :: after ∧ next.inUse = false ∧
      r = ({ p with
        frag := p.frag.setSize (p.frag.size + headerSize + next.size)
        after := after }, freeList.erase next.addr) := by
  unfold mergeNext at h
  rcases ha : p.after with _ | ⟨next, after⟩
  · simp [ha] at h
  · simp only [ha] at h
    split_ifs at h with hc
    exact ⟨next, after, rfl, hc, (Option.some.inj h).symm⟩

theorem mergePrev_neighbours (h : mergePrev p freeList = some r) :
    r.1.neighbours < p.neighbours := by
  obtain ⟨prev, before, hb, -, -, rfl⟩ := mergePrev_cases h
  simp [Place.neighbours, hb]

theorem mergeNext_neighbours (h : mergeNext p freeList = some r) :
    r.1.neighbours < p.neighbours := by
  obtain ⟨next, after, ha, -, rfl⟩ := mergeNext_cases h
  simp [Place.neighbours, ha]

end Merge

def defragment (p : Place) (freeList : List ℕ) : Place × List ℕ :=
  match _ : mergePrev p freeList with
  | some r =>
    match _ : mergeNext r.1 r.2 with
    | some r' => defragment r'.1 r'.2
    | none => defragment r.1 r.2
  | none =>
    match _ : mergeNext p freeList with
    | some r' => defragment r'.1 r'.2
    | none => (p, freeList)
termination_by p.neighbours
decreasing_by
  · exact (mergeNext_neighbours ‹_›).trans (mergePrev_neighbours ‹_›)
  · exact mergePrev_neighbours ‹_›
  · exact mergeNext_neighbours ‹_›

def releaseFragment (p : Place) (freeList : List ℕ) : Heap :=
  let p := { p with frag := { p.frag with inUse := false } }
  let (p, freeList) := defragment p (p.frag.addr :: freeList)
  if p.frag.isMmapBase ∧ ¬ (p.frag.inUse ∨ p.block.size ≠ p.frag.size) then
    ⟨p.left ++ p.right, freeList.erase p.frag.addr⟩
  else ⟨p.blocks, freeList⟩

/-- The first loop of `expand_fragment`: how many fragments there are up to `end_frag`, `none` if
that is `NULL`, and `available_size`. -/
def expandScan (newSize : ℕ) : ℕ → List Fragment → Option ℕ × ℕ
  | availableSize, [] => (none, availableSize)
  | availableSize, next :: after =>
    if next.inUse then (some 1, availableSize)
    else if newSize ≤ availableSize + (next.size + headerSize) then
      (some 1, availableSize + (next.size + headerSize))
    else
      let r := expandScan newSize (availableSize + (next.size + headerSize)) after
      (r.1.map (· + 1), r.2)

def absorb : ℕ → Place → List ℕ → Place × List ℕ
  | 0, p, freeList => (p, freeList)
  | count + 1, p, freeList =>
    match p.after with
    | [] => (p, freeList)
    | dying :: after =>
      absorb count { p with
        frag := p.frag.setSize (p.frag.size + headerSize + dying.size)
        after := after } (freeList.erase dying.addr)

def expandFragment (p : Place) (freeList : List ℕ) (newSize : ℕ) : Option (Place × List ℕ) :=
  match expandScan newSize p.frag.size p.after with
  | (none, _) => none
  | (some count, availableSize) =>
    if newSize ≤ availableSize then
      let (p, freeList) := absorb count p freeList
      some (shrinkFragment p freeList newSize)
    else none

def xtraceMalloc (h : Heap) (size : ℕ) (mmap : Option ℕ) : Heap × Option ℕ :=
  if size = 0 then (h, none)
  else
    let (h, addr) := allocateFragment h size mmap
    (h, addr.map (· + headerSize))

def xtraceFree (h : Heap) (pointer : ℕ) : Heap :=
  match h.locate (pointer - headerSize) with
  | none => h
  | some p => releaseFragment p h.freeList

def xtraceRealloc (h : Heap) (oldPointer newSize : ℕ) (mmap : Option ℕ) : Heap × Option ℕ :=
  match h.locate (oldPointer - headerSize) with
  | none => (h, some oldPointer)
  | some p =>
    if newSize < p.frag.size then
      let (p, freeList) := shrinkFragment p h.freeList newSize
      (⟨p.blocks, freeList⟩, some oldPointer)
    else if newSize = p.frag.size then (h, some oldPointer)
    else
      match expandFragment p h.freeList newSize with
      | some (p, freeList) => (⟨p.blocks, freeList⟩, some oldPointer)
      | none =>
        match allocateFragment h newSize mmap with
        | (h, none) => (h, none)
        | (h, some addr) => (xtraceFree h oldPointer, some (addr + headerSize))

inductive Call where
  | malloc (size : ℕ) (mmap : Option ℕ)
  | realloc (pointer size : ℕ) (mmap : Option ℕ)
  | free (pointer : ℕ)

/-- The heap, and the pointers that were returned and not freed, each with the size asked for. -/
structure State where
  heap : Heap
  live : List (ℕ × ℕ)

def forget (pointer : ℕ) (live : List (ℕ × ℕ)) : List (ℕ × ℕ) := live.filter fun x => x.1 ≠ pointer

def step (s : State) : Call → State
  | .malloc size mmap =>
    match xtraceMalloc s.heap size mmap with
    | (h, none) => ⟨h, s.live⟩
    | (h, some pointer) => ⟨h, (pointer, size) :: s.live⟩
  | .realloc pointer size mmap =>
    match xtraceRealloc s.heap pointer size mmap with
    | (h, none) => ⟨h, s.live⟩
    | (h, some newPointer) => ⟨h, (newPointer, size) :: forget pointer s.live⟩
  | .free pointer => ⟨xtraceFree s.heap pointer, forget pointer s.live⟩

end Darling.Xtrace
