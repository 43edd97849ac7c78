import Darling.Kernel

/-!
# `emulation/linux/signal`

The two numberings of the signals and the sets over them (`duct_signals.c`), the mask
(`sigprocmask.c`), the tables of actions (`sigaction.c`) and the handler that stands for all guest
handlers (`sigexc.c`).
-/

namespace Darling.Signal

section Numbers

@[match_pattern] abbrev linuxSighup : ℕ := 1
@[match_pattern] abbrev linuxSigint : ℕ := 2
@[match_pattern] abbrev linuxSigquit : ℕ := 3
@[match_pattern] abbrev linuxSigill : ℕ := 4
@[match_pattern] abbrev linuxSigtrap : ℕ := 5
@[match_pattern] abbrev linuxSigabrt : ℕ := 6
@[match_pattern] abbrev linuxSigbus : ℕ := 7
@[match_pattern] abbrev linuxSigfpe : ℕ := 8
@[match_pattern] abbrev linuxSigkill : ℕ := 9
@[match_pattern] abbrev linuxSigusr1 : ℕ := 10
@[match_pattern] abbrev linuxSigsegv : ℕ := 11
@[match_pattern] abbrev linuxSigusr2 : ℕ := 12
@[match_pattern] abbrev linuxSigpipe : ℕ := 13
@[match_pattern] abbrev linuxSigalrm : ℕ := 14
@[match_pattern] abbrev linuxSigterm : ℕ := 15
@[match_pattern] abbrev linuxSigstkflt : ℕ := 16
@[match_pattern] abbrev linuxSigchld : ℕ := 17
@[match_pattern] abbrev linuxSigcont : ℕ := 18
@[match_pattern] abbrev linuxSigstop : ℕ := 19
@[match_pattern] abbrev linuxSigtstp : ℕ := 20
@[match_pattern] abbrev linuxSigttin : ℕ := 21
@[match_pattern] abbrev linuxSigttou : ℕ := 22
@[match_pattern] abbrev linuxSigurg : ℕ := 23
@[match_pattern] abbrev linuxSigxcpu : ℕ := 24
@[match_pattern] abbrev linuxSigxfsz : ℕ := 25
@[match_pattern] abbrev linuxSigvtalrm : ℕ := 26
@[match_pattern] abbrev linuxSigprof : ℕ := 27
@[match_pattern] abbrev linuxSigwinch : ℕ := 28
@[match_pattern] abbrev linuxSigio : ℕ := 29
@[match_pattern] abbrev linuxSigpwr : ℕ := 30
@[match_pattern] abbrev linuxSigsys : ℕ := 31

@[match_pattern] abbrev sighup : ℕ := 1
@[match_pattern] abbrev sigint : ℕ := 2
@[match_pattern] abbrev sigquit : ℕ := 3
@[match_pattern] abbrev sigill : ℕ := 4
@[match_pattern] abbrev sigtrap : ℕ := 5
@[match_pattern] abbrev sigabrt : ℕ := 6
@[match_pattern] abbrev sigfpe : ℕ := 8
@[match_pattern] abbrev sigkill : ℕ := 9
@[match_pattern] abbrev sigbus : ℕ := 10
@[match_pattern] abbrev sigsegv : ℕ := 11
@[match_pattern] abbrev sigsys : ℕ := 12
@[match_pattern] abbrev sigpipe : ℕ := 13
@[match_pattern] abbrev sigalrm : ℕ := 14
@[match_pattern] abbrev sigterm : ℕ := 15
@[match_pattern] abbrev sigurg : ℕ := 16
@[match_pattern] abbrev sigstop : ℕ := 17
@[match_pattern] abbrev sigtstp : ℕ := 18
@[match_pattern] abbrev sigcont : ℕ := 19
@[match_pattern] abbrev sigchld : ℕ := 20
@[match_pattern] abbrev sigttin : ℕ := 21
@[match_pattern] abbrev sigttou : ℕ := 22
@[match_pattern] abbrev sigio : ℕ := 23
@[match_pattern] abbrev sigxcpu : ℕ := 24
@[match_pattern] abbrev sigxfsz : ℕ := 25
@[match_pattern] abbrev sigvtalrm : ℕ := 26
@[match_pattern] abbrev sigprof : ℕ := 27
@[match_pattern] abbrev sigwinch : ℕ := 28
@[match_pattern] abbrev siginfo : ℕ := 29
@[match_pattern] abbrev sigusr1 : ℕ := 30
@[match_pattern] abbrev sigusr2 : ℕ := 31

def signumLinuxToBsd : ℕ → ℕ
  | linuxSighup => sighup
  | linuxSigint => sigint
  | linuxSigquit => sigquit
  | linuxSigill => sigill
  | linuxSigtrap => sigtrap
  | linuxSigabrt => sigabrt
  | linuxSigfpe => sigfpe
  | linuxSigkill => sigkill
  | linuxSigbus => sigbus
  | linuxSigsegv => sigsegv
  | linuxSigsys => sigsys
  | linuxSigpipe => sigpipe
  | linuxSigalrm => sigalrm
  | linuxSigterm => sigterm
  | linuxSigurg => sigurg
  | linuxSigstop => sigstop
  | linuxSigtstp => sigtstp
  | linuxSigcont => sigcont
  | linuxSigchld => sigchld
  | linuxSigttin => sigttin
  | linuxSigttou => sigttou
  | linuxSigio => sigio
  | linuxSigxcpu => sigxcpu
  | linuxSigxfsz => sigxfsz
  | linuxSigvtalrm => sigvtalrm
  | linuxSigprof => sigprof
  | linuxSigwinch => sigwinch
  | linuxSigusr1 => sigusr1
  | linuxSigusr2 => sigusr2
  -- what is sent instead of a stop signal
  | linuxSigstkflt => sigstop
  | _ => 0

def signumBsdToLinux : ℕ → ℕ
  | sighup => linuxSighup
  | sigint => linuxSigint
  | sigquit => linuxSigquit
  | sigill => linuxSigill
  | sigtrap => linuxSigtrap
  | sigabrt => linuxSigabrt
  | sigfpe => linuxSigfpe
  | sigkill => linuxSigkill
  | sigbus => linuxSigbus
  | sigsegv => linuxSigsegv
  | sigsys => linuxSigsys
  | sigpipe => linuxSigpipe
  | sigalrm => linuxSigalrm
  | sigterm => linuxSigterm
  | sigurg => linuxSigurg
  | sigstop => linuxSigstkflt
  | sigtstp => linuxSigtstp
  | sigcont => linuxSigcont
  | sigchld => linuxSigchld
  | sigttin => linuxSigttin
  | sigttou => linuxSigttou
  | sigio => linuxSigio
  | sigxcpu => linuxSigxcpu
  | sigxfsz => linuxSigxfsz
  | sigvtalrm => linuxSigvtalrm
  | sigprof => linuxSigprof
  | sigwinch => linuxSigwinch
  | sigusr1 => linuxSigusr1
  | sigusr2 => linuxSigusr2
  | siginfo => linuxSigpwr
  | _ => 0

end Numbers

section Sets

variable {w : ℕ}

/-- The loop of `sigset_linux_to_bsd` and `sigset_bsd_to_linux`: `1 << (num-1)` is an `int`. -/
def sigsetLoop (signum : ℕ → ℕ) (v : ℕ) (set : BitVec w) : BitVec v :=
  (List.range 64).foldl (fun out i =>
    if set.getLsbD i ∧ signum (i + 1) ≠ 0 then
      out ||| (1#32 <<< (signum (i + 1) - 1)).signExtend v
    else out) 0

def sigsetLinuxToBsd (linux : BitVec 64) : BitVec 32 := sigsetLoop signumLinuxToBsd 32 linux

def sigsetBsdToLinux (bsd : BitVec 32) : BitVec 64 := sigsetLoop signumBsdToLinux 64 bsd

def Has (set : BitVec w) (signum : ℕ) : Prop := 0 < signum ∧ set.getLsbD (signum - 1) = true

instance (set : BitVec w) (signum : ℕ) : Decidable (Has set signum) := instDecidableAnd

def linuxUnmaskable : BitVec 64 := 1#64 <<< (linuxSigkill - 1) ||| 1#64 <<< (linuxSigstop - 1)

end Sets

section Sigprocmask

/-- `rt_sigprocmask`: the value returned, the old mask and the new one. -/
def rtSigprocmask (how : ℤ) (set : Option (BitVec 64)) (mask : BitVec 64) :
    ℤ × BitVec 64 × BitVec 64 :=
  match set with
  | none => (0, mask, mask)
  | some set =>
    if how = 0 then (0, mask, (mask ||| set) &&& ~~~linuxUnmaskable)
    else if how = 1 then (0, mask, mask &&& ~~~set)
    else if how = 2 then (0, mask, set &&& ~~~linuxUnmaskable)
    else (fail einval, mask, mask)

def spchowBsdToLinux (how : ℤ) : ℤ := how - 1

def sysSigprocmask (table : ℕ → ℕ) (how : ℤ) (set : Option (BitVec 32)) (mask : BitVec 64) :
    ℤ × Option (BitVec 32) × BitVec 64 :=
  let linuxHow := spchowBsdToLinux how
  let (ret, out, mask) := rtSigprocmask linuxHow (set.map sigsetBsdToLinux) mask
  if ret < 0 then (errnoLinuxToBsd table ret, none, mask)
  else (ret, some (sigsetLinuxToBsd out), mask)

end Sigprocmask

section Sigaction

/-- A value of `sa_sigaction`: `SIG_DFL`, `SIG_IGN`, `SIG_ERR` or a function. -/
inductive Handler where
  | dfl
  | ign
  | err
  | function (address : ℕ)
deriving DecidableEq

structure BsdSigaction where
  saSigaction : Handler
  saMask : BitVec 32
  saFlags : BitVec 32
deriving DecidableEq

/-- What Linux gets: `handler_linux_to_bsd`, or a value that is cast. -/
inductive LinuxHandler where
  | handlerLinuxToBsd
  | cast (handler : Handler)
deriving DecidableEq

structure LinuxSigaction where
  saSigaction : LinuxHandler
  saFlags : BitVec 32
  saMask : BitVec 64
deriving DecidableEq

structure State where
  sigHandlers : ℕ → Handler
  sigFlags : ℕ → BitVec 32
  sigMasks : ℕ → BitVec 32
  kernel : ℕ → LinuxSigaction

def initial : State where
  sigHandlers n := if n = linuxSigwinch ∨ n = linuxSigchld ∨ n = linuxSigurg then .ign else .dfl
  sigFlags _ := 0
  sigMasks _ := 0
  kernel _ := ⟨.cast .dfl, 0, 0⟩

def bsdSaNodefer : BitVec 32 := 0x0010#32

def linuxSaSiginfo : BitVec 32 := 0x00000004#32

def linuxSaNodefer : BitVec 32 := 0x40000000#32

def linuxSaResethand : BitVec 32 := 0x80000000#32

def linuxSaRestorer : BitVec 32 := 0x04000000#32

/-- `NOCLDSTOP`, `NOCLDWAIT`, `ONSTACK`, `NODEFER`, `RESETHAND` and `RESTART`, the BSD flag
first. -/
def sigflags : List (BitVec 32 × BitVec 32) :=
  [(0x0008#32, 0x00000001#32), (0x0020#32, 0x00000002#32), (0x0001#32, 0x08000000#32),
    (bsdSaNodefer, linuxSaNodefer), (0x0004#32, linuxSaResethand), (0x0002#32, 0x10000000#32)]

def sigflagsLoop (pairs : List (BitVec 32 × BitVec 32)) (init flags : BitVec 32) : BitVec 32 :=
  pairs.foldl (fun out p => if flags &&& p.1 ≠ 0 then out ||| p.2 else out) init

def sigflagsBsdToLinux (flags : BitVec 32) : BitVec 32 := sigflagsLoop sigflags linuxSaSiginfo flags

def sigflagsLinuxToBsd (flags : BitVec 32) : BitVec 32 :=
  sigflagsLoop (sigflags.map Prod.swap) 0 flags

/-- `rt_sigaction` with a new action, for a signal that can have one. -/
def rtSigaction (sa : LinuxSigaction) : LinuxSigaction :=
  { sa with saMask := sa.saMask &&& ~~~linuxUnmaskable }

def linuxSigaction (nsa : BsdSigaction) : LinuxSigaction where
  saSigaction :=
    if nsa.saSigaction ≠ .dfl ∧ nsa.saSigaction ≠ .ign ∧ nsa.saSigaction ≠ .err then
      .handlerLinuxToBsd
    else .cast nsa.saSigaction
  saMask := sigsetBsdToLinux nsa.saMask
  saFlags := sigflagsBsdToLinux nsa.saFlags ||| linuxSaRestorer

def sysSigaction (s : State) (signum : ℕ) (nsa : Option BsdSigaction) : State × BsdSigaction :=
  let linuxSignum := signumBsdToLinux signum
  if linuxSignum = 0 then (s, ⟨.dfl, 0, 0⟩)
  else
    match nsa with
    | none => (s, ⟨s.sigHandlers linuxSignum, s.sigMasks linuxSignum, s.sigFlags linuxSignum⟩)
    | some nsa =>
      let saved : State :=
        { s with
          sigHandlers := Function.update s.sigHandlers linuxSignum nsa.saSigaction
          sigFlags := Function.update s.sigFlags linuxSignum nsa.saFlags
          sigMasks := Function.update s.sigMasks linuxSignum nsa.saMask }
      if linuxSignum = linuxSigchld ∨ linuxSignum = linuxSigttou then
        let olsa := s.kernel linuxSignum
        let sa := rtSigaction (linuxSigaction nsa)
        ({ saved with kernel := Function.update s.kernel linuxSignum sa },
          ⟨match olsa.saSigaction with
            | .handlerLinuxToBsd => s.sigHandlers linuxSignum
            | .cast handler => handler,
          sigsetLinuxToBsd olsa.saMask, sigflagsLinuxToBsd olsa.saFlags⟩)
      else
        (saved, ⟨s.sigHandlers linuxSignum, s.sigMasks linuxSignum, s.sigFlags linuxSignum⟩)

end Sigaction

section Sigexc

/-- What `sigexc_handler` does: `rt_sigprocmask` with `SIG_SETMASK`, a call of the guest's handler
with the BSD number, `kill` of the process itself, and `SIG_DFL` for a signal. -/
inductive Effect where
  | setmask (set : BitVec 64)
  | handler (handler : Handler) (bsdSignum : ℕ)
  | kill (linuxSignum : ℕ)
  | sigDfl (linuxSignum : ℕ)
deriving DecidableEq

def handlerLinuxToBsd (s : State) (linuxSignum : ℕ) : State × List Effect :=
  let handler := s.sigHandlers linuxSignum
  let reset : State :=
    if s.sigFlags linuxSignum &&& linuxSaResethand ≠ 0 then
      { s with
        sigHandlers := Function.update s.sigHandlers linuxSignum
          (if linuxSignum = linuxSigwinch ∨ linuxSignum = linuxSigchld ∨ linuxSignum = linuxSigurg
            then .ign else .dfl) }
    else s
  (reset, [.handler handler (signumLinuxToBsd linuxSignum)])

/-- `sigexc_handler`; `sigprocess` is the signal that the tracer leaves of the one it is shown. -/
def sigexcHandler (s : State) (linuxSignum : ℕ) (sigprocess : ℕ → ℕ) : State × List Effect :=
  if linuxSignum = linuxSigcont then (s, [])
  else if signumLinuxToBsd linuxSignum = 0 then (s, [])
  else
    let signum := sigprocess (signumLinuxToBsd linuxSignum)
    if signum = 0 then (s, [])
    else
      let linuxSignum := signumBsdToLinux signum
      match s.sigHandlers linuxSignum with
      | .ign => (s, [])
      | .dfl =>
        if signum = sigtstp ∨ signum = sigstop then (s, [.kill linuxSigstop])
        else (s, [.sigDfl linuxSignum, .kill linuxSignum])
      | _ =>
        let set := (s.sigMasks linuxSignum).setWidth 64
        let set :=
          if s.sigFlags linuxSignum &&& linuxSaNodefer = 0 then set ||| 1#64 <<< (linuxSignum - 1)
          else set
        let (s, effects) := handlerLinuxToBsd s linuxSignum
        (s, .setmask set :: effects)

end Sigexc

end Darling.Signal
