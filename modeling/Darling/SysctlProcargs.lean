import Darling.SysctlProc

/-!
# `_sysctl_procargs`

The argument vector of a process, as `KERN_PROCARGS2` hands it out: the number of arguments, the
path of the executable, for which the first argument stands, and the arguments.
-/

namespace Darling.SysctlProc

open CArray

structure ProcFiles where
  cmdline : Option Bytes
  comm : Option Bytes

def readStringInto (dst content : Bytes) : Option Bytes := do
  let rd := content.take (dst.length - 1)
  let dst ← blit dst 0 rd
  store dst rd.length 0

def scanArgs (cmdline : Bytes) : ℕ → ℕ → ℕ → ℕ → Option (ℕ × ℕ × ℕ)
  | 0, _, argc, arg0len => some (argc, arg0len, 0)
  | fuel + 1, i, argc, arg0len => do
    let c ← cmdline[i]?
    let arg0len := if c = 0 ∧ argc = 0 then i else arg0len
    let argc := if c = 0 then argc + 1 else argc
    if 0 < i ∧ cmdline[i - 1]? = some 0 ∧ c = 0 then some (argc, arg0len, i)
    else scanArgs cmdline fuel (i + 1) argc arg0len

/-- What stands in `cmdline` when it is scanned.  The inner `none` is `-ENOTDIR`. -/
def fillCmdline (files : ProcFiles) (stack : Bytes) : Option (Option Bytes) :=
  match files.cmdline with
  | none => some none
  | some content => do
    let cmdline ← readStringInto stack content
    let c ← cmdline[0]?
    if c ≠ 0 then return some cmdline
    else
      match files.comm with
      | none => return none
      | some content => do
        let cmdline ← readStringInto cmdline content
        let s ← str 0 cmdline 0
        if s.length = 0 then none
        else return some (← store cmdline (s.length - 1) 0)

/-- What is returned, the caller's buffer and `*buflen`; `stack` is what `cmdline` held. -/
def sysctlProcargs (files : ProcFiles) (stack : Bytes) (buf : Option Bytes) (buflen : ℕ) :
    Option (ℤ × Option Bytes × ℕ) := do
  match ← fillCmdline files stack with
  | none => return (fail enotdir, buf, buflen)
  | some cmdline =>
    let (argc, arg0len, argslen) ← scanArgs cmdline 2047 0 0 0
    let totallen := 4 + arg0len + 2 + argslen + 1
    if buflen < totallen then return (if buf.isSome then fail enospc else 0, buf, totallen)
    else
      let buf ← buf
      let buf ← blit buf 0 (le 4 argc)
      let s ← str 0 cmdline 0
      let buf ← strcpy 0 buf 4 s
      let buf ← store buf (4 + arg0len + 1) 0
      let buf ← store buf (4 + arg0len + 2) 0
      let args ← slice cmdline 0 (argslen + 1)
      let buf ← blit buf (4 + arg0len + 2) args
      return (0, some buf, totallen)

end Darling.SysctlProc
