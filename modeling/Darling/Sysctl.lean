import Darling.CArray
import Darling.Catalog
import Darling.Endian
import Darling.Kernel

/-!
# `misc/sysctl.c` and `misc/sysctl_unspec.c`

`sys_sysctlbyname` goes down the tree of known variables by the names between the dots,
`handle_name_to_oid` puts down the numbers on the way, `sys_sysctl` goes down by numbers.  All three
end by calling a handler.  The handlers that look at the name vector are modelled here, the others
are left to a `Machine`.
-/

namespace Darling.Sysctl

open CArray Catalog

def eisdir : ℕ+ := ⟨21, by decide⟩

/-- An access outside: of the name vector, of a local array, or of what `old`, `oldlen` and `_new`
point to. -/
inductive Fault where
  | vector
  | array
  | buffer
deriving DecidableEq

inductive CtlType where
  | node
  | int
  | string
  | quad
  | opaque_
  | struct
deriving DecidableEq

inductive Plain where
  | availcpu
  | physicalcpu
  | physicalcpuMax
  | logicalcpu
  | logicalcpuMax
  | memsize
  | pagesize
  | cputype
  | cpusubtype
  | cputhreadtype
  | cpu64bitcapable
  | machine
  | cpufrequency
  | msgbuf
  | argmax
  | maxproc
  | netboot
  | safeboot
  | boottime
  | ostype
  | hostname
  | domainname
  | osrelease
  | version
  | osversion
  | usrstack32
  | usrstack64
  | osproductversion
  | sysvSemmns
  | maxBasic
  | vendor
  | family
  | model
  | stepping
  | brandString
  | features
deriving DecidableEq

inductive Handler where
  | plain (h : Plain)
  | oidToName
  | nameToOid
  | getDataType
  | proc
  | procargs32
  | procCputype
  | route
deriving DecidableEq

/-- The fields of `struct known_sysctl` besides the number and the name; a node has no handler. -/
structure Info where
  type : CtlType
  exttype : Bytes
  handler : Option Handler

/-- `struct known_sysctl`, without the terminating entry.  Numbers of type `int` are compared only,
and written here as they are in memory. -/
abbrev KnownSysctl := Entry Bytes UInt32 Info

section Table

def variable_ (oid : UInt32) (type : CtlType) (exttype name : String) (handler : Handler) :
    KnownSysctl := .leaf oid (ascii name.toList) ⟨type, ascii exttype.toList, some handler⟩

def directory (oid : UInt32) (name : String) (subctls : List KnownSysctl) : KnownSysctl :=
  .node oid (ascii name.toList) ⟨.node, [], none⟩ subctls

def sysctlsUnspec : List KnownSysctl :=
  [variable_ 1 .string "S" "oid_to_name" .oidToName,
   variable_ 3 .struct "I,oid" "name_to_oid" .nameToOid,
   variable_ 4 .struct "I,type" "get_data_type" .getDataType]

def sysctlsHw : List KnownSysctl :=
  [variable_ 25 .int "" "availcpu" (.plain .availcpu),
   variable_ 3 .int "" "ncpu" (.plain .availcpu),
   variable_ 1000 .int "" "physicalcpu" (.plain .physicalcpu),
   variable_ 1001 .int "" "physicalcpu_max" (.plain .physicalcpuMax),
   variable_ 1002 .int "" "logicalcpu" (.plain .logicalcpu),
   variable_ 1003 .int "" "logicalcpu_max" (.plain .logicalcpuMax),
   variable_ 24 .quad "U" "memsize" (.plain .memsize),
   variable_ 7 .int "" "pagesize" (.plain .pagesize),
   variable_ 1004 .int "" "cputype" (.plain .cputype),
   variable_ 1005 .int "" "cpusubtype" (.plain .cpusubtype),
   variable_ 1006 .int "" "cputhreadtype" (.plain .cputhreadtype),
   variable_ 1007 .int "" "cpu64bit_capable" (.plain .cpu64bitcapable),
   variable_ 1 .string "S" "machine" (.plain .machine),
   variable_ 15 .int "" "cpufrequency" (.plain .cpufrequency)]

def sysctlsKernSysv : List KnownSysctl := [variable_ 1000 .int "I" "semmns" (.plain .sysvSemmns)]

def sysctlsKern : List KnownSysctl :=
  [variable_ 1000 .string "S" "msgbuf" (.plain .msgbuf),
   variable_ 14 .struct "" "proc" .proc,
   variable_ 49 .struct "" "procargs2" .procargs32,
   variable_ 8 .int "I" "argmax" (.plain .argmax),
   variable_ 6 .int "I" "maxproc" (.plain .maxproc),
   variable_ 40 .int "I" "netboot" (.plain .netboot),
   variable_ 66 .int "I" "safeboot" (.plain .safeboot),
   variable_ 21 .struct "S,timeval" "boottime" (.plain .boottime),
   variable_ 1 .string "S" "ostype" (.plain .ostype),
   variable_ 10 .string "S" "hostname" (.plain .hostname),
   variable_ 22 .string "S" "domainname" (.plain .domainname),
   variable_ 2 .string "S" "osrelease" (.plain .osrelease),
   variable_ 4 .string "S" "version" (.plain .version),
   variable_ 65 .string "S" "osversion" (.plain .osversion),
   variable_ 35 .int "I" "usrstack" (.plain .usrstack32),
   variable_ 59 .quad "Q" "usrstack64" (.plain .usrstack64),
   variable_ 1001 .string "S" "osproductversion" (.plain .osproductversion),
   directory 42 "sysv" sysctlsKernSysv]

def sysctlsMachdepCpu : List KnownSysctl :=
  [variable_ 1001 .int "I" "max_basic" (.plain .maxBasic),
   variable_ 1000 .string "S" "vendor" (.plain .vendor),
   variable_ 1002 .int "I" "family" (.plain .family),
   variable_ 1003 .int "I" "model" (.plain .model),
   variable_ 1004 .int "I" "stepping" (.plain .stepping),
   variable_ 1005 .string "S" "vendor" (.plain .brandString),
   variable_ 1006 .string "S" "features" (.plain .features)]

def sysctlsMachdep : List KnownSysctl := [directory 1000 "cpu" sysctlsMachdepCpu]

def sysctlsSysctl : List KnownSysctl := [variable_ 1000 .int "I" "proc_cputype" .procCputype]

def sysctlsNet : List KnownSysctl := [variable_ 17 .opaque_ "" "route" .route]

def sysctlsGlobal : List KnownSysctl :=
  [directory 0 "unspec" sysctlsUnspec,
   directory 6 "hw" sysctlsHw,
   directory 1 "kern" sysctlsKern,
   directory 7 "machdep" sysctlsMachdep,
   directory 100 "sysctl" sysctlsSysctl,
   directory 4 "net" sysctlsNet]

def sysctlsRoot : KnownSysctl := directory 0 "" sysctlsGlobal

end Table

section Calls

structure Args where
  old : Option Bytes
  oldlen : Option ℕ
  new : Option Bytes
  newlen : ℕ

structure Outcome (ω : Type) where
  rv : ℤ
  old : Option Bytes
  oldlen : Option ℕ
  world : ω

structure Machine (ω : Type) where
  plain : Plain → Args → ω → Option (Outcome ω)
  sysctlProc : UInt32 → UInt32 → Args → ω → Option (Outcome ω)
  sysctlProcargs : UInt32 → Args → ω → Option (Outcome ω)
  task64bit : UInt32 → ω → ℤ
  doIflist : Args → ω → Option (Outcome ω)
  cpuType : Bool → UInt32
  typeCode : CtlType → UInt32

variable {ω : Type}

def Args.returns (a : Args) (rv : ℤ) (w : ω) : Outcome ω := ⟨rv, a.old, a.oldlen, w⟩

def WalkError.code : WalkError → ℤ
  | .noEntry => fail enoent
  | .notDir => fail enotdir

def buffer {α : Type*} : Option α → Except Fault α
  | none => .error .buffer
  | some x => .ok x

def readName (name : Option (List UInt32)) (i : ℕ) : Option UInt32 := name.bind (·[i]?)

def vector {α : Type*} : Option α → Except Fault α
  | none => .error .vector
  | some x => .ok x

def strtokR (s : Bytes) : Option (Bytes × Bytes) :=
  let s := s.dropWhile (· = dot)
  if s = [] then none
  else some (s.takeWhile (· ≠ dot), (s.dropWhile (· ≠ dot)).tail)

/-- The tokens that `strtok_r` returns one after the other; each uses up a byte at least. -/
def tokensWith : ℕ → Bytes → List Bytes
  | 0, _ => []
  | n + 1, s =>
    match strtokR s with
    | none => []
    | some (t, s) => t :: tokensWith n s

def tokens (s : Bytes) : List Bytes := tokensWith s.length s

def strlcpy (dst src : Bytes) (n : ℕ) : Option Bytes :=
  if n = 0 then some dst else blit dst 0 (src.take (n - 1) ++ [0])

def copyoutString (str : Bytes) (a : Args) (w : ω) : Except Fault (Outcome ω) :=
  match a.old with
  | none => .ok ⟨0, none, a.oldlen.map fun _ => str.length, w⟩
  | some out => do
    let n ← buffer a.oldlen
    let out ← buffer (strlcpy out str n)
    return ⟨0, some out, some str.length, w⟩

def oidToNameLoop (read : ℕ → Option UInt32) :
    ℕ → ℕ → KnownSysctl → Bytes → Except Fault (Except ℤ Bytes)
  | 0, _, _, sname => .ok (.ok sname)
  | n + 1, i, current, sname => do
    let x ← vector (read i)
    match current.entries.find? (·.number = x) with
    | none => return .error (fail enoent)
    | some next =>
      let sname := (if sname = [] then sname else sname ++ [dot]) ++ next.name
      if 64 ≤ sname.length then throw .array
      else if next.isNode then oidToNameLoop read n (i + 1) next sname
      else return .ok sname

def handleOidToName (name : Option (List UInt32)) (nlen : ℤ) (a : Args) (w : ω) :
    Except Fault (Outcome ω) := do
  match ← oidToNameLoop (fun i => readName name (i + 2)) (nlen - 2).toNat 0 sysctlsRoot [] with
  | .error rv => return a.returns rv w
  | .ok sname => copyoutString sname a w

def bytesOf (xs : List UInt32) : Bytes := xs.flatMap fun x => le 4 x.toNat

def handleNameToOid (a : Args) (w : ω) : Except Fault (Outcome ω) := do
  let new ← buffer a.new
  let text ← buffer (str 0 new 0)
  match numbers 4 sysctlsRoot (tokens (text.take (128 - 1))) with
  | none => throw .array
  | some (.error e) => return a.returns (WalkError.code e) w
  | some (.ok oid) =>
    let len ← buffer a.oldlen
    match a.old with
    | none => return ⟨0, none, some (4 * oid.length), w⟩
    | some old =>
      if len < 4 * oid.length then return a.returns (fail einval) w
      else
        let old ← buffer (blit old 0 (bytesOf oid))
        return ⟨0, some old, some (4 * oid.length), w⟩

def getDataTypeLoop (read : ℕ → Option UInt32) :
    ℕ → ℕ → KnownSysctl → Except Fault (Except ℤ KnownSysctl)
  | 0, _, current => .ok (.ok current)
  | n + 1, i, current =>
    if current.isNode then do
      let x ← vector (read i)
      match current.entries.find? (·.number = x) with
      | none => return .error (fail enoent)
      | some next => getDataTypeLoop read n (i + 1) next
    else .ok (.error (fail enotdir))

def handleGetDataType (m : Machine ω) (name : Option (List UInt32)) (nlen : ℤ) (a : Args) (w : ω) :
    Except Fault (Outcome ω) := do
  match ← getDataTypeLoop (fun i => readName name (i + 2)) (nlen - 2).toNat 0 sysctlsRoot with
  | .error rv => return a.returns rv w
  | .ok current =>
    let typelen := 4 + current.data.exttype.length + 1
    let len ← buffer a.oldlen
    match a.old with
    | none => return ⟨0, none, some typelen, w⟩
    | some old =>
      if len < typelen then return a.returns (fail einval) w
      else
        let old ← buffer (blit old 0 (le 4 (m.typeCode current.data.type).toNat))
        let old ← buffer (strcpy 0 old 4 current.data.exttype)
        return ⟨0, some old, some typelen, w⟩

def handleProc (m : Machine ω) (name : Option (List UInt32)) (nlen : ℤ) (a : Args) (w : ω) :
    Except Fault (Outcome ω) :=
  if nlen < 4 then .ok (a.returns (fail enoent) w)
  else do
    let what ← vector (readName name 2)
    let flag ← vector (readName name 3)
    buffer (m.sysctlProc what flag a w)

def handleProcargs32 (m : Machine ω) (name : Option (List UInt32)) (nlen : ℤ) (a : Args) (w : ω) :
    Except Fault (Outcome ω) :=
  if nlen < 3 then .ok (a.returns (fail enoent) w)
  else do
    let pid ← vector (readName name 2)
    buffer (m.sysctlProcargs pid a w)

def handleProcCputype (m : Machine ω) (name : Option (List UInt32)) (nlen : ℤ) (a : Args) (w : ω) :
    Except Fault (Outcome ω) :=
  if nlen < 3 then .ok (a.returns (fail enoent) w)
  else do
    let pid ← vector (readName name 2)
    if m.task64bit pid w < 0 then return a.returns (fail enoent) w
    else
      let len ← buffer a.oldlen
      if len < 4 then return a.returns (fail einval) w
      else
        let old ← buffer a.old
        let old ← buffer (blit old 0 (le 4 (m.cpuType (m.task64bit pid w ≠ 0)).toNat))
        return ⟨0, some old, a.oldlen, w⟩

/-- `_NET_RT_IFLIST` is 3. -/
def handleRoute (m : Machine ω) (name : Option (List UInt32)) (nlen : ℤ) (a : Args) (w : ω) :
    Except Fault (Outcome ω) :=
  if nlen ≠ 6 then .ok (a.returns (fail einval) w)
  else do
    let op ← vector (readName name 4)
    if op = 3 then buffer (m.doIflist a w) else return a.returns (fail einval) w

def Handler.run (m : Machine ω) (name : Option (List UInt32)) (nlen : ℤ) (a : Args) (w : ω) :
    Handler → Except Fault (Outcome ω)
  | .plain h => buffer (m.plain h a w)
  | .oidToName => handleOidToName name nlen a w
  | .nameToOid => handleNameToOid a w
  | .getDataType => handleGetDataType m name nlen a w
  | .proc => handleProc m name nlen a w
  | .procargs32 => handleProcargs32 m name nlen a w
  | .procCputype => handleProcCputype m name nlen a w
  | .route => handleRoute m name nlen a w

def finish (m : Machine ω) (name : Option (List UInt32)) (nlen : ℤ) (a : Args) (w : ω)
    (current : KnownSysctl) : Except Fault (Outcome ω) :=
  match current.data.handler with
  | none => .ok (a.returns (fail eisdir) w)
  | some h => h.run m name nlen a w

def entryByOid (name : Option (List UInt32)) (nlen : ℕ) : Option (Except WalkError KnownSysctl) :=
  byNumber (readName name) nlen 0 sysctlsRoot

def sysSysctl (m : Machine ω) (name : Option (List UInt32)) (nlen : ℕ) (a : Args) (w : ω) :
    Except Fault (Outcome ω) := do
  match ← vector (entryByOid name nlen) with
  | .error e => return a.returns (WalkError.code e) w
  | .ok current => finish m name ((nlen : ℤ).bmod (2 ^ 32)) a w current

/-- Assumed to succeed. -/
def noremotehang : Bytes := ascii "vfs.generic.noremotehang".toList

def entryByName (name : Bytes) : Except WalkError KnownSysctl :=
  byName sysctlsRoot (tokens (name.take (128 - 1)))

def sysSysctlbyname (m : Machine ω) (name : Bytes) (a : Args) (w : ω) : Except Fault (Outcome ω) :=
  if name = noremotehang then .ok (a.returns 0 w)
  else
    match entryByName name with
    | .error e => .ok (a.returns (WalkError.code e) w)
    | .ok current => finish m none 0 a w current

end Calls

end Darling.Sysctl
