import Darling.SysctlProc

/-!
# `misc/proc_info.c`

The calls that read `/proc/<pid>/stat`: `_proc_pidinfo_shortbsdinfo` and `_proc_pidonfo_uniqinfo`.
They fill a structure of the caller's as they go, and leave it as far as they got.
-/

namespace Darling.SysctlProc

def esrch : ℕ+ := ⟨3, by decide⟩

/-- How a call ends early: a byte outside the text or the buffer is accessed, or it returns. -/
inductive Exit (ι : Type) where
  | outside
  | ret (code : ℤ) (info : ι)

def leave {ι : Type} : Except (Exit ι) ι → Option (ℤ × ι)
  | .ok info => some (1, info)
  | .error (.ret code info) => some (code, info)
  | .error .outside => none

section Steps

variable {ι : Type}

def elemOr (info : ι) (buf : Option Bytes) : Except (Exit ι) (Bytes × Option Bytes) :=
  match nextStatElem buf with
  | .ok (some elem, buf) => .ok (elem, buf)
  | .ok (none, _) => .error (.ret (fail einval) info)
  | .error _ => .error .outside

def skipStatElems : ℕ → Option Bytes → Except (Exit ι) (Option Bytes)
  | 0, buf => .ok buf
  | count + 1, buf =>
    match nextStatElem buf with
    | .ok (_, buf) => skipStatElems count buf
    | .error _ => .error .outside

def statOr (env : Env) (pid : ℤ) (info : ι) : Except (Exit ι) Bytes :=
  match readString env (decimalInt pid) with
  | .ok stat => .ok stat
  | .error _ => .error (.ret (fail esrch) info)

/-- The test of `bufsize` and the `memset`.  The comparison is one of unsigned numbers: a negative
`bufsize` passes it, and the `memset` leaves the buffer. -/
def clearBuffer (bufsize size : ℤ) (before : ι) : Except (Exit ι) Unit :=
  if bufsize < 0 then .error .outside
  else if bufsize < size then .error (.ret (fail enospc) before)
  else .ok ()

end Steps

structure BsdShortInfo where
  pid : ℕ
  ppid : ℕ
  pgid : ℕ
  status : Option ProcStat
  comm : Bytes
  lp64 : Bool
  uid : ℤ
  gid : ℤ

def BsdShortInfo.zero : BsdShortInfo := ⟨0, 0, 0, none, [], false, 0, 0⟩

def shortInfoSize : ℤ := 64

def uint32 (x : ℤ) : ℕ := (x % 2 ^ 32).toNat

/-- `_proc_pidinfo_shortbsdinfo`; `before` is what the caller's structure held. -/
def procPidinfoShortbsdinfo (env : Env) (pid bufsize : ℤ) (before : BsdShortInfo) :
    Option (ℤ × BsdShortInfo) :=
  leave (do
      clearBuffer bufsize shortInfoSize before
      let info := BsdShortInfo.zero
      let stat ← statOr env pid info
      let info := { info with pid := uint32 pid }
      let statptr ← skipStatElems 1 (some stat)
      let comm ← elemOr info statptr
      let info := { info with comm := comm.1.take 16 }
      let state ← elemOr info comm.2
      let info := { info with status := some (procStat state.1) }
      let ppid ← elemOr info state.2
      let info := { info with ppid := atoi ppid.1 % 2 ^ 32 }
      let pgid ← elemOr info ppid.2
      return { info with
        pgid := atoi pgid.1 % 2 ^ 32, uid := env.uid, gid := env.gid, lp64 := env.lp64 pid })

/-- The fields of `struct proc_uniqidentifierinfo` apart from the UUID, which is zero. -/
structure UniqInfo where
  uniqueid : ℕ
  puniqueid : ℕ

def uniqInfoSize : ℤ := 56

def uniqueId (starttime : ℕ) (pid : ℤ) : ℕ := (starttime <<< 16) % 2 ^ 64 ||| uint32 pid % 2 ^ 16

def procPidonfoUniqinfo (env : Env) (pid bufsize : ℤ) (before : UniqInfo) : Option (ℤ × UniqInfo) :=
  leave (do
      clearBuffer bufsize uniqInfoSize before
      let info : UniqInfo := ⟨0, 0⟩
      let stat ← statOr env pid info
      let statptr ← skipStatElems 3 (some stat)
      let ppid ← elemOr info statptr
      let statptr ← skipStatElems 17 ppid.2
      let start ← elemOr info statptr
      let info : UniqInfo := { info with uniqueid := uniqueId (atoi start.1) pid }
      let ppid := int32 (atoi ppid.1)
      let stat ← statOr env ppid info
      let statptr ← skipStatElems 21 (some stat)
      let start ← elemOr info statptr
      return { info with puniqueid := uniqueId (atoi start.1) ppid })

end Darling.SysctlProc
