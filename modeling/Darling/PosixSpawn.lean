import Darling.FdTable
import Darling.Kernel
import Darling.Wp

/-!
# `process/posix_spawn.c`

The parent makes a pipe whose ends are close-on-exec, forks, and reads the pipe: a child that fails
writes its error code there, one that executes the program leaves the end of the file.  The child is
a program on its descriptor table that stops at `goto fail` with the value of `ret`.
-/

namespace Darling.PosixSpawn

inductive File (φ : Type) where
  | pipeRead
  | pipeWrite
  | user (f : φ)

def File.isPipeWrite {φ : Type} : File φ → Bool
  | .pipeWrite => true
  | _ => false

inductive Kind where
  | open (oflag : BitVec 32) (mode : ℕ) (path : Bytes)
  | close
  | dup2 (newfiledes : ℤ)
  | inherit
  | chdir (path : Bytes)
  | fchdir
  | other (type : ℕ)
deriving DecidableEq

structure Action where
  filedes : ℤ
  kind : Kind

structure Attr where
  resetids : Bool
  setpgroup : Bool
  setsigmask : Bool
  disableAslr : Bool
  startSuspended : Bool
  cloexecDefault : Bool
  setexec : Bool
  pgroup : ℕ
  sigmask : ℕ

structure Desc where
  attrp : Option Attr
  factp : Option (List Action)

def Desc.setexec (desc : Desc) : Bool := desc.attrp.any Attr.setexec

/-- The calls, as far as they do not concern the numbers of descriptors.  A call reads and changes
the state `σ` of everything else; what `openat` opens is never the status pipe.  `getdents` is the
error that reading `/proc/self/fd` meets, and after how many entries. -/
structure Sys (φ σ : Type) where
  openat : σ → Bytes → BitVec 32 → ℕ → Except ℕ+ φ × σ
  chdir : σ → Bytes → ℤ × σ
  fchdir : σ → Option (File φ) → ℤ × σ
  setids : σ → σ
  setpgid : σ → ℕ → ℤ × σ
  sigprocmask : σ → ℕ → ℤ × σ
  personality : σ → σ
  stopAfterExec : σ → σ
  getdents : σ → Option (ℕ × ℕ+)
  execve : σ → Option ℕ+
  fork : σ → Except ℕ+ ℕ

structure Child (φ σ : Type) where
  fds : Table (File φ)
  pipe : ℤ
  world : σ
  trace : List (Table (File φ))

abbrev Spawn (φ σ : Type) := EStateM ℤ (Child φ σ)

section Child

variable {φ σ : Type}

def call (f : Table (File φ) → ℤ × Table (File φ)) : Spawn φ σ ℤ := fun s =>
  .ok (f s.fds).1 { s with fds := (f s.fds).2, trace := s.trace ++ [(f s.fds).2] }

def outside {β : Type} (f : σ → β × σ) : Spawn φ σ β := fun s =>
  .ok (f s.world).1 { s with world := (f s.world).2 }

def failIf (bad : Prop) [Decidable bad] (ret : ℤ) (cleanup : Spawn φ σ Unit) : Spawn φ σ Unit :=
  if bad then do
    cleanup
    throw ret
  else pure ()

def nothing : Spawn φ σ Unit := pure ()

def closeInternal (fd : ℤ) : Spawn φ σ ℤ := call (·.close fd)

def sysDup (fd : ℤ) : Spawn φ σ ℤ := call (·.dup fd)

def sysDup2 (fdFrom fdTo : ℤ) : Spawn φ σ ℤ := call (·.dup2 fdFrom fdTo)

def oCloexec (oflag : BitVec 32) : Bool := oflag.getLsbD 24

def sysOpen (sys : Sys φ σ) (path : Bytes) (oflag : BitVec 32) (mode : ℕ) : Spawn φ σ ℤ := do
  let opened ← outside fun w => sys.openat w path oflag mode
  call fun t =>
    match opened with
    | .error e => (fail e, t)
    | .ok f => t.alloc ⟨.user f, oCloexec oflag⟩

def fdCloexec : BitVec 32 := 1

def setFlags (fd : ℤ) (f : BitVec 32 → BitVec 32) (cleanup : Spawn φ σ Unit) : Spawn φ σ Unit := do
  let ret ← call fun t => (t.getfd fd, t)
  failIf (ret < 0) ret cleanup
  let ret ← call (·.setfd fd (f (BitVec.ofInt 32 ret)))
  failIf (ret < 0) ret cleanup

def Names (pipe : ℤ) (act : Action) : Prop := act.filedes = pipe ∨ act.kind = .dup2 pipe

instance (pipe : ℤ) (act : Action) : Decidable (Names pipe act) :=
  inferInstanceAs (Decidable (act.filedes = pipe ∨ act.kind = .dup2 pipe))

def movePipe (act : Action) : Spawn φ σ Unit := do
  let pipe := (← get).pipe
  if Names pipe act then do
    let ret ← sysDup pipe
    failIf (ret < 0) ret nothing
    let _ ← closeInternal pipe
    modify fun s => { s with pipe := ret }
  else pure ()

def perform (sys : Sys φ σ) (act : Action) : Spawn φ σ Unit :=
  match act.kind with
  | .close => do
    let ret ← closeInternal act.filedes
    failIf (ret ≠ 0) ret nothing
  | .dup2 newfiledes => do
    let ret ← sysDup2 act.filedes newfiledes
    failIf (ret < 0) ret nothing
  | .open oflag mode path => do
    let fd ← sysOpen sys path oflag mode
    failIf (fd < 0) fd nothing
    if fd ≠ act.filedes then do
      let ret ← sysDup2 fd act.filedes
      failIf (ret < 0) ret (do let _ ← closeInternal fd)
    else pure ()
  | .chdir path => do
    let ret ← outside fun w => sys.chdir w path
    failIf (ret < 0) ret nothing
  | .fchdir => do
    let file := ((← get).fds.get act.filedes).map Darling.Desc.file
    let ret ← outside fun w => sys.fchdir w file
    failIf (ret < 0) ret nothing
  | .inherit => setFlags act.filedes (· &&& ~~~fdCloexec) nothing
  | .other _ => pure ()

def round (sys : Sys φ σ) (act : Action) : Spawn φ σ Unit := do
  movePipe act
  perform sys act

def procSelfFd : Bytes := ascii ['/', 'p', 'r', 'o', 'c', '/', 's', 'e', 'l', 'f', '/', 'f', 'd']

def cloexecDefault (sys : Sys φ σ) : Spawn φ σ Unit := do
  let dir ← sysOpen sys procSelfFd 0 0
  failIf (dir < 0) dir nothing
  let s ← get
  let error := sys.getdents s.world
  let listed := match error with
    | none => s.fds.numbers
    | some (count, _) => s.fds.numbers.take count
  forM listed fun (fd : ℕ) =>
    -- The number of the commpage.
    if fd = 1023 then pure ()
    else setFlags fd (· ||| fdCloexec) (do let _ ← closeInternal dir)
  let _ ← closeInternal dir
  match error with
  | none => pure ()
  | some (_, e) => throw (fail e)

def onFlag (flag : Bool) (m : Spawn φ σ Unit) : Spawn φ σ Unit := if flag then m else pure ()

def attributes (sys : Sys φ σ) (attr : Attr) : Spawn φ σ Unit := do
  onFlag attr.resetids (outside fun w => ((), sys.setids w))
  onFlag attr.setpgroup do
    let ret ← outside fun w => sys.setpgid w attr.pgroup
    failIf (ret ≠ 0) ret nothing
  onFlag attr.setsigmask do
    let ret ← outside fun w => sys.sigprocmask w attr.sigmask
    failIf (ret ≠ 0) ret nothing
  onFlag attr.disableAslr (outside fun w => ((), sys.personality w))
  onFlag attr.startSuspended (outside fun w => ((), sys.stopAfterExec w))
  onFlag attr.cloexecDefault (cloexecDefault sys)

def prepare (sys : Sys φ σ) (desc : Desc) : Spawn φ σ Unit :=
  match desc.attrp with
  | none => pure ()
  | some attr => attributes sys attr

def Desc.actions (desc : Desc) : List Action := desc.factp.getD []

def execve (sys : Sys φ σ) : Spawn φ σ Unit := do
  match sys.execve (← get).world with
  | none => pure ()
  | some e => throw (fail e)

def spawn (sys : Sys φ σ) (desc : Desc) : Spawn φ σ Unit := do
  prepare sys desc
  forM desc.actions (round sys)
  execve sys

def child (sys : Sys φ σ) (desc : Desc) (pipe0 : ℤ) : Spawn φ σ Unit := do
  let _ ← closeInternal pipe0
  spawn sys desc

def start (fds : Table (File φ)) (pipe : ℤ) (world : σ) : Child φ σ := ⟨fds, pipe, world, [fds]⟩

/-- What `sys_read` leaves in `ret` of the parent: the code that a failed child has written to
`pipe[1]`, or 0 at the end of the file; nothing as long as the new program holds the writing end. -/
def parentReads : EStateM.Result ℤ (Child φ σ) Unit → Option ℤ
  | .error ret s =>
    if ((s.fds.get s.pipe).any fun d => d.file.isPipeWrite) then some ret else some 0
  | .ok _ s => if s.fds.inheritsAny File.isPipeWrite then none else some 0

/-- The return value, `none` while the call does not return, `*pid`, and the descriptors the caller
is left with. -/
def sysPosixSpawn (sys : Sys φ σ) (errno : ℕ → ℕ) (desc : Desc) (fds : Table (File φ)) (world : σ) :
    Option ℤ × Option ℕ × Table (File φ) :=
  if desc.setexec then
    match spawn sys desc (start fds (-1) world) with
    | .error ret s => (some (errnoLinuxToBsd errno ret), none, s.fds)
    | .ok _ s => (none, none, s.fds)
  else
    match fds.pipe2 .pipeRead .pipeWrite with
    | none => (some (-emfile), none, fds)
    | some (pipe0, pipe1, fds) =>
      let parent := (fds.close pipe1).2
      match sys.fork world with
      | .error e => (some (fail e), none, parent)
      | .ok pid =>
        match parentReads (child sys desc pipe0 (start fds pipe1 world)) with
        | none => (none, some pid, parent)
        | some ret => (some ret, some pid, (parent.close pipe0).2)

end Child

end Darling.PosixSpawn
