import Darling.Futex
import Mathlib.Algebra.Group.Nat.Defs

/-!
# `xtrace/lock.c`

`xtrace_lock` and `xtrace_once` as programs on a futex.  A place in the code is before an atomic
operation or a call of the kernel; what comes between two of them is local to the thread and goes
with the first.
-/

namespace Darling

open Futex

/-- `atomic_compare_exchange_strong_explicit`: the new value, and the one that was there. -/
def cmpxchg {ω : Type} [DecidableEq ω] (state expected desired : ω) : ω × ω :=
  (if state = expected then desired else state, state)

namespace XtraceLock

inductive LockState where
  | unlocked
  | lockedUncontended
  | lockedContended
deriving DecidableEq, Repr

/-- Where a thread is.  `outside` is before its call of `xtrace_lock_lock`, `contend` and `retry`
are the other two exchanges of that function, `critical` is before `xtrace_lock_unlock`. -/
inductive Pc where
  | outside
  | contend
  | wait
  | retry
  | critical
  | wake
deriving DecidableEq, Repr

/-- The body of the loop, for the state that was found: a lock that is contended already is not
marked again. -/
def body (prev : LockState) : Pc := if prev = .lockedContended then .wait else .contend

def op : Pc → Op LockState LockState Pc
  | .outside => .atomic fun state =>
    let (state, prev) := cmpxchg state .unlocked .lockedUncontended
    (state, if prev ≠ .unlocked then body prev else .critical)
  | .contend => .atomic fun state =>
    let (state, prev) := cmpxchg state .lockedUncontended .lockedContended
    (state, if prev ≠ .unlocked then .wait else .retry)
  | .wait => .wait .lockedContended .retry
  | .retry => .atomic fun state =>
    let (state, prev) := cmpxchg state .unlocked .lockedContended
    (state, if prev ≠ .unlocked then body prev else .critical)
  | .critical => .atomic fun prev =>
    (.unlocked, if prev = .lockedContended then .wake else .outside)
  | .wake => .wake 1 .outside

def lock : Program LockState LockState Pc := ⟨id, op⟩

abbrev State (ι : Type) := Futex.State ι LockState Pc

def start {ι : Type} : State ι := ⟨.unlocked, fun _ => .awake .outside⟩

end XtraceLock

namespace XtraceOnce

inductive OnceState where
  | untriggered
  | triggeredUncontended
  | triggeredContended
  | completed
deriving DecidableEq, Repr

/-- The word, and for the record how often the callback has been started and finished. -/
structure Memory where
  state : OnceState
  started : ℕ
  finished : ℕ
deriving DecidableEq, Repr

/-- Where a thread is.  `call` and `callback` are before the start and before the end of the
callback, `publish` is before the exchange that follows it. -/
inductive Pc where
  | outside
  | call
  | callback
  | publish
  | wake
  | contend
  | wait
  | load
  | spin
  | returned
deriving DecidableEq, Repr

/-- The `switch` of the loop; there is no case for `untriggered`. -/
def evaluate : OnceState → Pc
  | .completed => .returned
  | .triggeredUncontended => .contend
  | .triggeredContended => .wait
  | .untriggered => .spin

def intMax : ℕ := 2 ^ 31 - 1

def op : Pc → Op Memory OnceState Pc
  | .outside => .atomic fun m =>
    let (state, prev) := cmpxchg m.state .untriggered .triggeredUncontended
    ({ m with state := state }, if prev = .untriggered then .call else evaluate prev)
  | .call => .atomic fun m => ({ m with started := m.started + 1 }, .callback)
  | .callback => .atomic fun m => ({ m with finished := m.finished + 1 }, .publish)
  | .publish => .atomic fun m =>
    ({ m with state := .completed },
      if m.state = .triggeredContended then .wake else .returned)
  | .wake => .wake intMax .returned
  | .contend => .atomic fun m =>
    let (state, prev) := cmpxchg m.state .triggeredUncontended .triggeredContended
    ({ m with state := state }, if prev = .triggeredUncontended then .wait else evaluate prev)
  | .wait => .wait .triggeredContended .load
  | .load => .atomic fun m => (m, evaluate m.state)
  | .spin => .atomic fun m => (m, .spin)
  | .returned => .atomic fun m => (m, .outside)

def once : Program Memory OnceState Pc := ⟨Memory.state, op⟩

abbrev State (ι : Type) := Futex.State ι Memory Pc

def start {ι : Type} : State ι := ⟨⟨.untriggered, 0, 0⟩, fun _ => .awake .outside⟩

end XtraceOnce

end Darling
