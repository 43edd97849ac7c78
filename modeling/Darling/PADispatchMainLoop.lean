import Mathlib.Data.Int.Basic
import Mathlib.Logic.Function.Iterate

/-!
# Deferred events of `CoreAudio/pulse/PADispatchMainLoop.cpp`

The dispatch queue runs its blocks one after the other; a block stays in front of the queue until it
has run.  Only the client's code takes several steps: the callbacks, and the blocks that the client
dispatches.  In them the client calls the functions of the loop.
-/

namespace Darling.PADispatchMainLoop

/-- `struct defer_event`; of the destroy callback only whether it is set. -/
structure DeferEvent where
  active : Bool := true
  destroy : Bool := false

inductive Block where
  | fire (e : ℕ)
  | free (e : ℕ)
  | client
deriving DecidableEq

inductive Happened where
  | created (e : ℕ)
  | enabled (e : ℕ) (b : Bool)
  | destroySet (e : ℕ) (b : Bool)
  | freed (e : ℕ)
  | accessed (e : ℕ)
  | invoked (e : ℕ)
  | destroyed (e : ℕ)
  | deleted (e : ℕ)
deriving DecidableEq

/-- `running`: the block in front is in the client's code.  The events below `next` were allocated.
The last entry of the history comes first. -/
structure State where
  queue : List Block
  running : Bool
  next : ℕ
  event : ℕ → DeferEvent
  history : List Happened

namespace State

variable (s : State)

def initial : State := ⟨[], false, 0, fun _ => ⟨false, false⟩, []⟩

def log (x : Happened) : State := { s with history := x :: s.history }

def set (e : ℕ) (ev : DeferEvent) : State := { s with event := Function.update s.event e ev }

def allocate : State := { s with next := s.next + 1 }

def dispatchAsync (b : Block) : State := { s with queue := s.queue ++ [b] }

def enter : State := { s with running := true }

def complete : State := { s with queue := s.queue.tail, running := false }

end State

section Loop

variable (s : State)

def deferNew : State :=
  (((s.log (.created s.next)).set s.next {}).allocate).dispatchAsync (.fire s.next)

def deferSetDestroy (e : ℕ) (cb : Bool) : State :=
  ((s.log (.accessed e)).log (.destroySet e cb)).set e { s.event e with destroy := cb }

def deferEnable (e : ℕ) (b : ℤ) : State :=
  let s := s.log (.accessed e)
  let s := if !(s.event e).active && b ≠ 0 then s.dispatchAsync (.fire e) else s
  (s.log (.enabled e (b ≠ 0))).set e { s.event e with active := b ≠ 0 }

def deferFree (e : ℕ) : State :=
  (((s.log (.accessed e)).log (.freed e)).set e { s.event e with active := false }).dispatchAsync
    (.free e)

def deferEventFire (e : ℕ) : State :=
  let s := s.log (.accessed e)
  if (s.event e).active then (s.log (.invoked e)).enter else s.complete

def deferEventFired (e : ℕ) : State :=
  let s := s.log (.accessed e)
  (if (s.event e).active then s.dispatchAsync (.fire e) else s).complete

def deleteEvent (e : ℕ) : State := (s.log (.deleted e)).complete

/-- The block that `defer_free` dispatches, up to the call of the destroy callback. -/
def freeBlock (e : ℕ) : State :=
  let s := s.log (.accessed e)
  if (s.event e).destroy then (s.log (.destroyed e)).enter else deleteEvent s e

end Loop

inductive Call where
  | new
  | setDestroy (e : ℕ) (cb : Bool)
  | enable (e : ℕ) (b : ℤ)
  | free (e : ℕ)

def call (s : State) : Call → State
  | .new => deferNew s
  | .setDestroy e cb => if e < s.next then deferSetDestroy s e cb else s
  | .enable e b => if e < s.next then deferEnable s e b else s
  | .free e => if e < s.next then deferFree s e else s

/-- `submit`: the client dispatches a block of its own.  `begin`: the queue runs the block in front,
up to the client's code if there is any.  `finish`: the client's code returns. -/
inductive Action where
  | submit
  | begin
  | call (c : Call)
  | finish

def beginBlock (s : State) : State :=
  match s.queue with
  | [] => s
  | .client :: _ => s.enter
  | .fire e :: _ => deferEventFire s e
  | .free e :: _ => freeBlock s e

def finishBlock (s : State) : State :=
  match s.queue with
  | [] => s
  | .client :: _ => s.complete
  | .fire e :: _ => deferEventFired s e
  | .free e :: _ => deleteEvent s e

def step (s : State) : Action → State
  | .submit => s.dispatchAsync .client
  | .begin => if s.running then s else beginBlock s
  | .call c => if s.running then call s c else s
  | .finish => if s.running then finishBlock s else s

def round (s : State) : State := step (step s .begin) .finish

def drain (s : State) : State := round^[s.queue.length] s

section History

variable (e : ℕ)

def enabled : List Happened → Bool
  | [] => false
  | .created e' :: h => if e' = e then true else enabled h
  | .enabled e' b :: h => if e' = e then b else enabled h
  | .freed e' :: h => if e' = e then false else enabled h
  | _ :: h => enabled h

def destroySet : List Happened → Bool
  | [] => false
  | .created e' :: h => if e' = e then false else destroySet h
  | .destroySet e' b :: h => if e' = e then b else destroySet h
  | _ :: h => destroySet h

end History

/-- No callback of a disabled or freed event, no access to a deleted one, one destroy callback. -/
def Acceptable : Happened → List Happened → Prop
  | .invoked e, h => enabled e h ∧ .freed e ∉ h
  | .accessed e, h => .deleted e ∉ h
  | .destroyed e, h => .destroyed e ∉ h
  | .deleted e, h => .deleted e ∉ h ∧ (destroySet e h → .destroyed e ∈ h)
  | _, _ => True

def Sound : List Happened → Prop
  | [] => True
  | x :: h => Acceptable x h ∧ Sound h

structure Correct (s : State) : Prop where
  atMostOne : ∀ e, s.queue.count (.fire e) ≤ 1
  oneIfEnabled : ∀ e, enabled e s.history → s.queue.count (.fire e) = 1
  sound : Sound (drain s).history
  deleted : ∀ e, .freed e ∈ s.history → .deleted e ∈ (drain s).history

/-- An event is enabled when its last block is gone, freed once, and not used when it is deleted. -/
def Allowed (s : State) : Action → Prop
  | .call (.setDestroy e _) => s.running → e < s.next → .deleted e ∉ s.history
  | .call (.enable e b) => s.running → e < s.next → .deleted e ∉ s.history ∧
      (b ≠ 0 → (s.event e).active = false → .freed e ∉ s.history ∧ .fire e ∉ s.queue)
  | .call (.free e) => s.running → e < s.next → .freed e ∉ s.history
  | _ => True

end Darling.PADispatchMainLoop
