import Darling.FileTree
import Mathlib.Algebra.GroupWithZero.Nat

/-!
# FSEvents over inotify

A stream reads inotify events on one queue (`_readEvents`), gathers them in three arrays, and hands
the arrays to its client on another queue (`_doCallback`).  The two sides, the kernel and the client
take their steps in any order; `_doCallback` begins when no handler runs and suspends the source.
-/

namespace Darling.FSEvents

structure InotifyEvent where
  wd : ℤ
  mask : UInt32
  len : ℕ
  name : Bytes

structure Config where
  wdMap : ℤ → Option Bytes
  fileEvents : Bool

def inModify : UInt32 := 0x2
def inAttrib : UInt32 := 0x4
def inMovedFrom : UInt32 := 0x40
def inMovedTo : UInt32 := 0x80
def inCreate : UInt32 := 0x100
def inDelete : UInt32 := 0x200
def inDeleteSelf : UInt32 := 0x400
def inMoveSelf : UInt32 := 0x800
def inIsdir : UInt32 := 0x40000000

def itemCreated : UInt32 := 0x100
def itemRemoved : UInt32 := 0x200
def itemRenamed : UInt32 := 0x800
def itemModified : UInt32 := 0x1000
def itemChangeOwner : UInt32 := 0x4000
def itemXattrMod : UInt32 := 0x8000
def itemIsFile : UInt32 := 0x10000
def itemIsDir : UInt32 := 0x20000

def InotifyEvent.flags (evt : InotifyEvent) : UInt32 :=
  let on (mask flags : UInt32) : UInt32 := if evt.mask &&& mask ≠ 0 then flags else 0
  (if evt.mask &&& inIsdir ≠ 0 then itemIsDir else itemIsFile) |||
    on (inDelete ||| inDeleteSelf) itemRemoved |||
    on (inMoveSelf ||| inMovedFrom ||| inMovedTo) itemRenamed |||
    on inModify itemModified ||| on inCreate itemCreated |||
    on inAttrib (itemChangeOwner ||| itemXattrMod)

def Config.item (cfg : Config) (evt : InotifyEvent) : Option (Bytes × UInt32) :=
  (cfg.wdMap evt.wd).map fun watchPath =>
    if cfg.fileEvents then
      (if evt.len = 0 then watchPath else watchPath ++ slash :: evt.name, evt.flags)
    else (watchPath, 0)

structure Invocation where
  numEvents : ℕ
  paths : List Bytes
  flags : List UInt32
  ids : List ℕ

def Invocation.items (c : Invocation) : List (Bytes × UInt32) := c.paths.zip c.flags

/-- A stream with the kernel's queue.  `queued` blocks wait on the dispatch queue, `active`
invocations of `_doCallback` have called the client and have not ended; `arrived` and `calls` are
what has happened so far. -/
structure Stream where
  pending : List InotifyEvent
  pathArray : List Bytes
  flagArray : List UInt32
  idArray : List ℕ
  lastEventID : ℕ
  reading : Bool
  suspensions : ℕ
  running : Bool
  hasQueue : Bool
  queued : ℕ
  signalled : Bool
  active : ℕ
  arrived : List InotifyEvent
  calls : List Invocation

/-- After `initWithPaths:`; a source is created suspended. -/
def Stream.init : Stream where
  pending := []
  pathArray := []
  flagArray := []
  idArray := []
  lastEventID := 0
  reading := false
  suspensions := 1
  running := false
  hasQueue := false
  queued := 0
  signalled := false
  active := 0
  arrived := []
  calls := []

/-- `realloc` for `n` elements and the store at the end.  `n` is an `int`: where it gets negative
`realloc` fails, and the array is lost. -/
def grow {α : Type} (x : α) (a : List α) (n : ℕ) (v : α) : List α :=
  if n < 2 ^ 31 then a.take (n - 1) ++ List.replicate (n - 1 - a.length) x ++ [v] else []

def Stream.processSingleEvent (cfg : Config) (s : Stream) (evt : InotifyEvent) : Stream :=
  match cfg.item evt with
  | none => s
  | some (fullPath, flags) =>
    { s with
      pathArray := s.pathArray ++ [fullPath]
      flagArray := grow 0 s.flagArray (s.pathArray.length + 1) flags
      lastEventID := (s.lastEventID + 1) % 2 ^ 64
      idArray := grow 0 s.idArray (s.pathArray.length + 1) ((s.lastEventID + 1) % 2 ^ 64) }

def bufferSize : ℕ := 16 + 4096 + 1

def Stream.Readable (s : Stream) (n : ℕ) : Prop :=
  s.reading ∧ 0 < n ∧ n ≤ s.pending.length ∧
    ((s.pending.take n).map fun evt => 16 + evt.len).sum ≤ bufferSize

instance (s : Stream) (n : ℕ) : Decidable (s.Readable n) := inferInstanceAs (Decidable (_ ∧ _))

/-- One round of the loop in `_readEvents`: the buffer is processed as a single event. -/
def Stream.read (cfg : Config) (s : Stream) (n : ℕ) : Stream :=
  match s.pending with
  | [] => s
  | evt :: _ => { s with pending := s.pending.drop n }.processSingleEvent cfg evt

def Stream.dispatchEvents (s : Stream) : Stream :=
  if s.hasQueue then { s with queued := s.queued + 1 } else { s with signalled := true }

/-- `_doCallback` can begin: its block or the source of the run loop is due, and `dispatch_sync`
has waited for the handler. -/
def Stream.Due (s : Stream) (onQueue : Bool) : Prop :=
  s.reading = false ∧ if onQueue then 0 < s.queued else s.signalled = true

instance (s : Stream) (onQueue : Bool) : Decidable (s.Due onQueue) :=
  inferInstanceAs (Decidable (_ ∧ if onQueue then _ else _))

def Stream.beginCallback (s : Stream) (onQueue : Bool) : Stream :=
  { s with
    queued := if onQueue then s.queued - 1 else s.queued
    signalled := if onQueue then s.signalled else false
    suspensions := s.suspensions + 1
    active := s.active + 1
    calls := s.calls ++ [⟨s.pathArray.length, s.pathArray, s.flagArray, s.idArray⟩] }

def Stream.endCallback (s : Stream) : Stream :=
  { s with
    pathArray := []
    flagArray := []
    idArray := []
    suspensions := s.suspensions - 1
    active := s.active - 1 }

inductive Action where
  /-- The kernel queues an event. -/
  | arrive (evt : InotifyEvent)
  | start
  | stop
  | setDispatchQueue (hasQueue : Bool)
  /-- The source calls `_readEvents`. -/
  | fire
  /-- `read` returns `n` events. -/
  | read (n : ℕ)
  /-- `read` fails with `EAGAIN`. -/
  | again
  | beginCallback (onQueue : Bool)
  | endCallback

/-- A step that cannot be taken in a state leaves it. -/
def Stream.step (cfg : Config) (s : Stream) : Action → Stream
  | .arrive evt => { s with pending := s.pending ++ [evt], arrived := s.arrived ++ [evt] }
  | .start =>
    if s.running then s else { s with suspensions := s.suspensions - 1, running := true }
  | .stop => if s.running then { s with suspensions := s.suspensions + 1, running := false } else s
  | .setDispatchQueue hasQueue => { s with hasQueue := hasQueue }
  | .fire => if s.suspensions = 0 ∧ s.reading = false then { s with reading := true } else s
  | .read n => if s.Readable n then s.read cfg n else s
  | .again =>
    if s.reading ∧ s.pending = [] then { s with reading := false }.dispatchEvents else s
  | .beginCallback onQueue => if s.Due onQueue then s.beginCallback onQueue else s
  | .endCallback => if 0 < s.active then s.endCallback else s

def Stream.gathered (s : Stream) : List (Bytes × UInt32) :=
  if s.active = 0 then s.pathArray.zip s.flagArray else []

def Stream.gatheredIds (s : Stream) : List ℕ := if s.active = 0 then s.idArray else []

/-- No event is lost, passed twice or out of order. -/
structure Stream.Accounted (cfg : Config) (s : Stream) : Prop where
  events : s.calls.flatMap Invocation.items ++ s.gathered ++ s.pending.filterMap cfg.item =
    s.arrived.filterMap cfg.item
  ids : ∃ n, s.calls.flatMap Invocation.ids ++ s.gatheredIds = List.range' 1 n
  lengths : ∀ c ∈ s.calls, c.paths.length = c.numEvents ∧ c.flags.length = c.numEvents ∧
    c.ids.length = c.numEvents
  /-- What is gathered will be passed on. -/
  due : s.pathArray ≠ [] → s.reading ∨ 0 < s.queued ∨ s.signalled ∨ 0 < s.active

/-- Of the events of one `read`, only the first has a known descriptor, its number is not the last
one and the arrays have room for it; `_doCallback` does not begin within another one that has
events. -/
def Stream.Condition (cfg : Config) (s : Stream) : Action → Prop
  | .read n => s.Readable n → (∀ evt ∈ (s.pending.take n).tail, cfg.wdMap evt.wd = none) ∧
      ∀ evt ∈ s.pending.head?, cfg.wdMap evt.wd ≠ none →
        s.lastEventID + 1 < 2 ^ 64 ∧ s.pathArray.length + 1 < 2 ^ 31
  | .beginCallback onQueue => s.Due onQueue → s.active = 0 ∨ s.pathArray = []
  | _ => True

end Darling.FSEvents
