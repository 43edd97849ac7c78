import Darling.Getdirentries
import Darling.Decimal

/-!
# `misc/sysctl_proc.c`

`_sysctl_proc` lists `/proc` through `sys_getdirentries` with a buffer of 256 bytes, reads the
`stat` file of every process it comes by and hands out a `kinfo_proc` for those that the selector
asks for.  `/proc` can be opened, and `buflen` is not null.
-/

namespace Darling.SysctlProc

open CArray Getdirentries

inductive Selector
  | all
  | pid
  | pgrp
  | session
  | tty
  | uid
  | ruid
  deriving DecidableEq

inductive What
  | select (w : Selector)
  | lcid
  | other
  deriving DecidableEq

inductive ProcStat
  | srun
  | ssleep
  | sstop
  | szomb
  deriving DecidableEq

structure KinfoProc where
  pid : ℤ
  lp64 : Bool
  comm : Bytes
  stat : ProcStat
  ppid : ℤ
  pgid : ℤ
  tdev : ℤ
  controlt : Bool
  priority : ℕ
  nice : ℤ
  uid : ℤ
  gid : ℤ
  deriving DecidableEq

structure Env where
  stat : Bytes → Option Bytes
  lp64 : ℤ → Bool
  uid : ℤ
  gid : ℤ

/-- Why `load_proc` ends without a record: a byte behind the end of the text is read, or
`goto retnull`. -/
inductive Halt
  | outside
  | null
  deriving DecidableEq

/-- `end + k`, for what stands at `end`; behind the terminator it is nowhere. -/
def advance (k : ℕ) (rest : Bytes) : Option Bytes :=
  if k ≤ rest.length then some (rest.drop k) else none

/-- The element and `*buf` after it.  `*buf` is what is left of the string, or behind its end. -/
def nextStatElem : Option Bytes → Except Halt (Option Bytes × Option Bytes)
  | none => .error .outside
  | some [] => .ok (none, some [])
  | some (c :: s) =>
    if c = 40 then
      .ok (some (s.takeWhile (· ≠ 41)), advance 2 (s.dropWhile (· ≠ 41)))
    else
      .ok (some ((c :: s).takeWhile (· ≠ 32)), advance 1 ((c :: s).dropWhile (· ≠ 32)))

def readElem (buf : Option Bytes) : Except Halt (Bytes × Option Bytes) :=
  match nextStatElem buf with
  | .ok (some elem, buf) => .ok (elem, buf)
  | .ok (none, _) => .error .null
  | .error h => .error h

def rejectIf (c : Prop) [Decidable c] : Except Halt Unit := if c then .error .null else .ok ()

def int32 (n : ℕ) : ℤ := Int.bmod n (2 ^ 32)

def readString (env : Env) (name : Bytes) : Except Halt Bytes :=
  match env.stat name with
  | some content => .ok ((content.take 1023).takeWhile (· ≠ 0))
  | none => .error .null

def procStat (elem : Bytes) : ProcStat :=
  match elem.head? with
  | some 82 => .srun
  | some 83 => .ssleep
  | some 68 => .ssleep
  | some 84 => .sstop
  | some 90 => .szomb
  | _ => .ssleep

def Rejects (flag : ℤ) (kinfo : KinfoProc) : What → Prop
  | .select .all => False
  | .select .pid => flag ≠ kinfo.pid
  | .select .tty => flag ≠ kinfo.tdev
  | .select .uid => flag ≠ kinfo.uid
  | .select .pgrp => flag ≠ kinfo.pgid
  | .select .session => False
  | .select .ruid => flag ≠ kinfo.uid
  | .lcid => False
  | .other => True

instance (flag : ℤ) (kinfo : KinfoProc) (what : What) : Decidable (Rejects flag kinfo what) := by
  unfold Rejects
  split <;> infer_instance

/-- `load_proc`.  The second `skip_stat_elems` skips nothing, so what it takes for the priority and
the nice value are the two elements behind `tty_nr`. -/
def loadProc (env : Env) (name : Bytes) (what : What) (flag : ℤ) : Except Halt KinfoProc := do
  let stat ← readString env name
  let skipped ← nextStatElem (some stat)
  let comm ← readElem skipped.2
  let state ← readElem comm.2
  let ppid ← readElem state.2
  let pgid ← readElem ppid.2
  let sid ← readElem pgid.2
  rejectIf (what = .select .session ∧ int32 (atoi sid.1) ≠ flag)
  let tty ← readElem sid.2
  let priority ← readElem tty.2
  let nice ← readElem priority.2
  let kinfo : KinfoProc :=
    { pid := int32 (atoi name)
      lp64 := env.lp64 (int32 (atoi name))
      comm := comm.1.take 17
      stat := procStat state.1
      ppid := int32 (atoi ppid.1)
      pgid := int32 (atoi pgid.1)
      tdev := int32 (atoi tty.1)
      controlt := int32 (atoi tty.1) ≠ 0
      priority := atoi priority.1 % 2 ^ 8
      nice := Int.bmod (atoi nice.1) (2 ^ 8)
      uid := env.uid
      gid := env.gid }
  rejectIf (Rejects flag kinfo what)
  return kinfo

structure Found where
  nproc : ℕ
  chain : List KinfoProc

def visit (env : Env) (what : What) (flag : ℤ) (buflen : ℕ) (found : Found) (name : Bytes) :
    Option Found :=
  if what ≠ .select .all ∨ 0 < buflen then
    match loadProc env name what flag with
    | .ok cur => some { nproc := found.nproc + 1, chain := found.chain ++ [cur] }
    | .error .null => some found
    | .error .outside => none
  else some { found with nproc := found.nproc + 1 }

def typeOff : ℕ := 6

def walkDents (visit : Found → Bytes → Option Found) (dents : Bytes) (ret : ℕ) :
    ℕ → ℕ → Found → Option Found
  | 0, pos, found => if pos < ret then none else some found
  | fuel + 1, pos, found =>
    if pos < ret then do
      let type ← load 1 dents (pos + typeOff)
      let name ← str 0 dents (pos + bsdDirent.nameOff)
      let reclen ← load 2 dents (pos + bsdDirent.reclenOff)
      let found ← if type ≠ 4 ∨ ¬ isdigit (name.headD 0) then some found else visit found name
      walkDents visit dents ret fuel (pos + reclen) found
    else some found

def readProc (visit : Found → Bytes → Option Found) (table : ℕ → ℕ) :
    ℕ → Bytes → List Entry → Found → Option (ℤ × Found)
  | 0, _, _, _ => none
  | fuel + 1, dents, dir, found => do
    let r ← sysGetdirentries table (fail einval) dents (some 0) dir
    if r.ret ≤ 0 then some (r.ret, found)
    else do
      let found ← walkDents visit r.ibuf r.ret.toNat r.ret.toNat 0 found
      readProc visit table fuel r.ibuf r.dir found

def kinfoSize : ℕ := 648

def enospc : ℕ+ := ⟨28, by decide⟩

def copyOut : List KinfoProc → ℕ → List KinfoProc → Option (List KinfoProc)
  | [], _, out => some out
  | kinfo :: chain, i, out => do copyOut chain (i + 1) (← store out i kinfo)

/-- What is returned, `*buflen`, and the caller's array.  `dents` is what the stack held.  Every
call of `sys_getdirentries` but the last gets an entry, so `dir.length + 1` of them are enough. -/
def sysctlProc (env : Env) (table : ℕ → ℕ) (dents : Bytes) (dir : List Entry)
    (what : What) (flag : ℤ) (out : Option (List KinfoProc)) (buflen : ℕ) :
    Option (ℤ × ℕ × Option (List KinfoProc)) :=
  if 0 < buflen ∧ out = none then some (fail efault, buflen, out)
  else do
    let r ← readProc (visit env what flag buflen) table (dir.length + 1) dents dir ⟨0, []⟩
    if buflen < r.2.nproc * kinfoSize then
      some (if out.isSome then fail enospc else 0, r.2.nproc * kinfoSize, out)
    else
      match out with
      | some out => (copyOut r.2.chain 0 out).map fun out =>
          (r.1, r.2.nproc * kinfoSize, some out)
      | none => if r.2.chain = [] then some (r.1, r.2.nproc * kinfoSize, none) else none

end Darling.SysctlProc
