import Mathlib.Data.Int.Notation
import Mathlib.Data.Nat.Notation

/-!
# `sem_down` and `sem_up`

Any number of calls on one semaphore, none with a time limit, which take turns after every atomic
addition, every store and every futex call.  Calls differ only in how far they have come, so a state
has the number of calls at each place.
-/

namespace Darling.Semaphore

/-- `sem`, the calls that have not returned, by what they do next, and those that have: `sem_down`
with 1 and with 0, and `sem_up`.  `lost` is only recorded: the permits that are no longer in `sem`
and that no call has. -/
structure State where
  sem : ℤ
  downDec : ℕ
  downStore : ℕ
  downWait : ℕ
  downAsleep : ℕ
  upInc : ℕ
  upStore : ℕ
  upWake : ℕ
  ones : ℕ
  zeros : ℕ
  ups : ℕ
  lost : ℕ

/-- A call, a step of a call, or the end of a wait without a `FUTEX_WAKE`: by a signal, or for no
reason. -/
inductive Action where
  | callDown
  | callUp
  | dec
  | storeDown
  | wait
  | inc
  | storeUp
  | wake
  | interrupt
  | spurious

/-- What no call can do does nothing. -/
def step (s : State) : Action → State
  | .callDown => { s with downDec := s.downDec + 1 }
  | .callUp => { s with upInc := s.upInc + 1 }
  | .dec =>
    if s.downDec = 0 then s
    else if s.sem - 1 < 0 then
      { s with sem := s.sem - 1, downDec := s.downDec - 1, downStore := s.downStore + 1 }
    else { s with sem := s.sem - 1, downDec := s.downDec - 1, ones := s.ones + 1 }
  | .storeDown =>
    if s.downStore = 0 then s
    else
      { s with
        sem := -1, downStore := s.downStore - 1, downWait := s.downWait + 1
        lost := s.lost + s.sem.toNat }
  | .wait =>
    if s.downWait = 0 then s
    else if s.sem = -1 then
      { s with downWait := s.downWait - 1, downAsleep := s.downAsleep + 1 }
    -- `FUTEX_WAIT` fails, and `sem_down` gives up
    else { s with downWait := s.downWait - 1, zeros := s.zeros + 1 }
  | .inc =>
    if s.upInc = 0 then s
    else if s.sem + 1 = 0 then
      { s with sem := s.sem + 1, upInc := s.upInc - 1, upStore := s.upStore + 1 }
    else
      { s with
        sem := s.sem + 1, upInc := s.upInc - 1, ups := s.ups + 1
        lost := if s.sem + 1 < 0 then s.lost + 1 else s.lost }
  | .storeUp =>
    if s.upStore = 0 then s
    else
      { s with
        sem := 1, upStore := s.upStore - 1, upWake := s.upWake + 1
        lost := s.lost + s.sem.toNat }
  | .wake =>
    if s.upWake = 0 then s
    else if s.downAsleep = 0 then { s with upWake := s.upWake - 1, ups := s.ups + 1 }
    else
      { s with
        upWake := s.upWake - 1, ups := s.ups + 1
        downAsleep := s.downAsleep - 1, downDec := s.downDec + 1 }
  | .interrupt =>
    if s.downAsleep = 0 then s
    else { s with downAsleep := s.downAsleep - 1, zeros := s.zeros + 1 }
  | .spurious =>
    if s.downAsleep = 0 then s
    else { s with downAsleep := s.downAsleep - 1, downDec := s.downDec + 1 }

def start (k : ℕ) : State := ⟨k, 0, 0, 0, 0, 0, 0, 0, 0, 0, 0, 0⟩

def State.upsStarted (s : State) : ℕ := s.upInc + s.upStore + s.upWake + s.ups

/-- Every `sem_up` has returned, and every `sem_down` that has not sleeps; there is one. -/
def State.Waits (s : State) : Prop :=
  s.upInc = 0 ∧ s.upStore = 0 ∧ s.upWake = 0 ∧ s.downDec = 0 ∧ s.downStore = 0 ∧ s.downWait = 0 ∧
    0 < s.downAsleep

end Darling.Semaphore
