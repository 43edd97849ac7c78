import Darling.Runs
import Mathlib.Data.Fintype.Basic

/-!
# The work queue

A worker thread with nothing to do enters `workq_parked_head` and waits on a semaphore of its own.
A thread that requests workers takes parked threads from the queue and raises their semaphores.
Threads take turns after every access to memory, lock operation and futex call; the queue is only
touched under its lock, in one step.
-/

namespace Darling.Workq

inductive Down where
  | dec
  | store
  | wait
  | asleep
deriving DecidableEq, Repr

inductive Up where
  | inc
  | store
  | wake
deriving DecidableEq, Repr

/-- Where a thread is in `sys_workq_kernreturn`.  In a request `n` is the number of threads that
are still to be requested after this one. -/
inductive Pc (ι : Type) where
  | unborn
  | running
  | parkLock
  | parkInit
  | parkInsert
  | parkUp (u : Up)
  | parkUnlock
  | parked (d : Down)
  | relock
  | recheck
  | remove
  | unlockWoken
  | unlockTerminate
  | terminated
  | requestDown (n : ℕ) (d : Down)
  | requestLock (n : ℕ)
  | requestHead (n : ℕ)
  | requestDequeue (n : ℕ) (thread : ι)
  | requestUp (n : ℕ) (thread : ι) (u : Up)
  | requestUnlock (n : ℕ)
  | spawnUnlock (n : ℕ)
  | spawn (n : ℕ)
deriving DecidableEq, Repr

/-- How far the `sem_up` of a requester on a thread that it has dequeued has come. -/
inductive Stage where
  | pending
  | incremented
  | stored
  | done
deriving DecidableEq, Repr

/-- What has become of the `parked_thread` of a thread since it was inserted. -/
inductive Fate where
  | idle
  | queued
  | dequeued (g : Stage)
  | removed
  | removedTwice
deriving DecidableEq, Repr

/-- The memory of the process.  `sem t` is `me.sem` of thread `t`; `fate` is only recorded. -/
structure State (ι : Type) where
  pc : ι → Pc ι
  workqSem : ℤ
  sem : ι → ℤ
  queue : List ι
  holder : Option ι
  fate : ι → Fate

variable {ι : Type} [DecidableEq ι]

namespace State

def set (s : State ι) (t : ι) (p : Pc ι) : State ι := { s with pc := Function.update s.pc t p }

def setSem (s : State ι) (t : ι) (v : ℤ) : State ι := { s with sem := Function.update s.sem t v }

def setFate (s : State ι) (t : ι) (f : Fate) : State ι :=
  { s with fate := Function.update s.fate t f }

def lock (s : State ι) (t : ι) (p : Pc ι) : State ι :=
  if s.holder = none then { s.set t p with holder := some t } else s

def unlock (s : State ι) (t : ι) (p : Pc ι) : State ι := { s.set t p with holder := none }

end State

def request : ℕ → Pc ι
  | 0 => .running
  | n + 1 => .requestDown n .dec

def Pc.AsleepOnWorkq : Pc ι → Bool
  | requestDown _ .asleep => true
  | _ => false

def wakeWorkq [Fintype ι] (s : State ι) (t w : ι) (p : Pc ι) : State ι :=
  match s.pc w with
  | .requestDown n .asleep => (s.set w (.requestDown n .dec)).set t p
  | _ => if ∃ v, (s.pc v).AsleepOnWorkq then s else s.set t p

/-- The next step of a thread, or none if it cannot go on.  `w` is the thread that a call of
`FUTEX_WAKE` wakes, or the new one. -/
def runThread [Fintype ι] (s : State ι) (t w : ι) : State ι :=
  match s.pc t with
  | .unborn | .running | .terminated => s
  -- WQOPS_THREAD_RETURN
  | .parkLock => s.lock t .parkInit
  | .parkInit => (s.setSem t 0).set t .parkInsert
  | .parkInsert => ({ s with queue := t :: s.queue }.setFate t .queued).set t (.parkUp .inc)
  | .parkUp .inc =>
    { s with workqSem := s.workqSem + 1 }.set t
      (if s.workqSem + 1 = 0 then .parkUp .store else .parkUnlock)
  | .parkUp .store => { s with workqSem := 1 }.set t (.parkUp .wake)
  | .parkUp .wake => wakeWorkq s t w .parkUnlock
  | .parkUnlock => s.unlock t (.parked .dec)
  | .parked .dec =>
    if s.sem t - 1 < 0 then (s.setSem t (s.sem t - 1)).set t (.parked .store)
    else ((s.setSem t (s.sem t - 1)).setFate t .idle).set t .running
  | .parked .store => (s.setSem t (-1)).set t (.parked .wait)
  | .parked .wait => s.set t (if s.sem t = -1 then .parked .asleep else .relock)
  | .parked .asleep => s
  | .relock => s.lock t .recheck
  | .recheck => s.set t (if 0 < s.sem t then .unlockWoken else .remove)
  | .remove =>
    ({ s with queue := s.queue.erase t }.setFate t
      (if t ∈ s.queue then .removed else .removedTwice)).set t .unlockTerminate
  | .unlockWoken => (s.setFate t .idle).unlock t .running
  | .unlockTerminate => s.unlock t .terminated
  -- WQOPS_QUEUE_REQTHREADS
  | .requestDown n .dec =>
    { s with workqSem := s.workqSem - 1 }.set t
      (if s.workqSem - 1 < 0 then .requestDown n .store else .requestLock n)
  | .requestDown n .store => { s with workqSem := -1 }.set t (.requestDown n .wait)
  | .requestDown n .wait =>
    s.set t (if s.workqSem = -1 then .requestDown n .asleep else .requestLock n)
  | .requestDown _ .asleep => s
  | .requestLock n => s.lock t (.requestHead n)
  | .requestHead n =>
    match s.queue with
    | [] => s.set t (.spawnUnlock n)
    | thread :: _ => s.set t (.requestDequeue n thread)
  | .requestDequeue n thread =>
    ({ s with queue := s.queue.erase thread }.setFate thread (.dequeued .pending)).set t
      (.requestUp n thread .inc)
  | .requestUp n thread .inc =>
    if s.sem thread + 1 = 0 then
      ((s.setSem thread (s.sem thread + 1)).setFate thread (.dequeued .incremented)).set t
        (.requestUp n thread .store)
    else
      ((s.setSem thread (s.sem thread + 1)).setFate thread (.dequeued .done)).set t
        (.requestUnlock n)
  | .requestUp n thread .store =>
    ((s.setSem thread 1).setFate thread (.dequeued .stored)).set t (.requestUp n thread .wake)
  | .requestUp n thread .wake =>
    let s := s.setFate thread (.dequeued .done)
    (if s.pc thread = .parked .asleep then s.set thread (.parked .dec) else s).set t
      (.requestUnlock n)
  | .requestUnlock n => s.unlock t (request n)
  | .spawnUnlock n => s.unlock t (.spawn n)
  | .spawn n => (if s.pc w = .unborn then s.set w .running else s).set t (request n)

inductive Action (ι : Type) where
  | threadReturn (t : ι)
  | requestThreads (t : ι) (n : ℕ)
  | run (t w : ι)
  | timeout (t : ι)
deriving DecidableEq, Repr

/-- A call by a thread that runs, a step of a thread, or the time out of a parked one.  What cannot
be done does nothing. -/
def step [Fintype ι] (s : State ι) : Action ι → State ι
  | .threadReturn t => if s.pc t = .running then s.set t .parkLock else s
  | .requestThreads t n => if s.pc t = .running then s.set t (request n) else s
  | .run t w => runThread s t w
  | .timeout t => if s.pc t = .parked .asleep then s.set t .relock else s

/-- No thread is parked; those in `born` run. -/
def start (born : ι → Bool) : State ι where
  pc t := if born t then .running else .unborn
  workqSem := 64
  sem _ := 0
  queue := []
  holder := none
  fate _ := .idle

end Darling.Workq
