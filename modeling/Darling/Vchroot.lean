import Darling.CArray
import Darling.Kernel
import Mathlib.Algebra.Group.Nat.Defs

/-!
# `vchroot_userspace.c`

The guest-to-host path resolver, over its arrays.  `none` is an access outside `current_path`, the
link buffer or `args->path`; everything else the source returns is `some` with its return code.
The Linux calls are the fields of a `Kernel`.
-/

namespace Darling.Vchroot

open CArray

def exitPath : Bytes :=
  ascii ['/', 'V', 'o', 'l', 'u', 'm', 'e', 's', '/', 'S', 'y', 's', 't', 'e', 'm', 'R', 'o', 'o',
    't']

def procPath : Bytes := ascii ['/', 'p', 'r', 'o', 'c']

def colon : Byte := ':'.toUInt8

def pathMax : ℕ := 4096

def linkMax : ℕ := 512

def maxSymlinkDepth : ℕ := 10

def lower (c : Byte) : Byte := if 65 ≤ c ∧ c ≤ 90 then c + 32 else c

def caseEq (s t : Bytes) : Bool := s.map lower = t.map lower

structure Config where
  prefixPath : Bytes
  icaseEnabled : Bool
  prefix_nul : 0 ∉ prefixPath
  prefix_lt : prefixPath.length < pathMax

/-- What `current_root` points to: `prefix_path`, or the literal `""` of the host root. -/
inductive Root where
  | guest
  | host
  deriving DecidableEq, Repr

def Root.text (V : Config) : Root → Bytes
  | .guest => V.prefixPath
  | .host => []

/-- `struct context`, but for `symlink_depth`: the depth is how far `vchrootRun` has counted down
from `maxSymlinkDepth + 1`. -/
structure Context where
  currentRoot : Root
  currentRootLen : ℕ
  currentPath : Bytes
  currentPathLen : ℕ
  unknownComponent : Bool
  follow : Bool

/-- How an iteration of the loop ends: with the next component, or by returning. -/
inductive Flow (γ : Type) where
  | next (c : γ)
  | ret (rv : ℤ) (c : γ)
  deriving DecidableEq

/-- What looking at an appended component decides: go on to `ignore_symlink`, return, or call
`vchroot_run` on the text of a link. -/
inductive Verdict (γ : Type) where
  | skip (c : γ)
  | ret (rv : ℤ) (c : γ)
  | follow (link : Bytes) (c : γ)
  deriving DecidableEq

def nextComponent (from_ : Bytes) : Bytes × Bytes :=
  (from_.takeWhile (· ≠ slash), from_.dropWhile (· ≠ slash))

def rest (input : Bytes) : Bytes := (nextComponent input).2.dropWhile (· = slash)

section Step

variable (V : Config) (k : Kernel)

def appendSlash (c : Context) : Option Context := do
  let a ← store c.currentPath c.currentPathLen slash
  let a ← store a (c.currentPathLen + 1) 0
  return { c with currentPath := a, currentPathLen := c.currentPathLen + 1 }

def reenter (c : Context) : Option Context := do
  let a ← strcpy 0 c.currentPath 0 V.prefixPath
  let a ← strcat 0 a exitPath
  let n := V.prefixPath.length + (exitPath.length + 1)
  let a ← store a (n - 1) slash
  let a ← store a n 0
  return { c with
    currentPath := a, currentPathLen := n
    currentRoot := .guest, currentRootLen := V.prefixPath.length }

def dotdot (c : Context) : Option (Flow Context) := do
  let c ← (if c.currentPathLen ≤ 1 then reenter V c else some c)
  let p ← scanBack c.currentPath slash (c.currentPathLen - 2)
  let a ← store c.currentPath p 0
  let c := { c with currentPath := a, currentPathLen := p }
  return if p < c.currentRootLen then .ret (fail enoent) c else .next c

def icaseSearch (c : Context) (prevlen : ℕ) : Option Context := do
  let a ← store c.currentPath (prevlen - 1) 0
  let above ← (if 1 < prevlen then str 0 a 0 else some [slash])
  let (a, unknown) ← (match k.getdents above with
    | .error _ => some (a, true)
    | .ok batches => do
      let name ← str 0 a prevlen
      match batches.flatten.find? (caseEq · name) with
      | some d => do
        let a ← strcpy 0 a prevlen d
        some (a, c.unknownComponent)
      | none => some (a, true))
  let a ← store a (prevlen - 1) slash
  return { c with currentPath := a, unknownComponent := unknown }

def enterLink (c : Context) (prevlen : ℕ) : Option (Verdict Context) := do
  let p ← str 0 c.currentPath 0
  match k.readlink p with
  | .error e => return .ret (fail e) c
  | .ok t =>
    let t := t.take (linkMax - 1)
    let buf ← blit (List.replicate linkMax 0) 0 t
    let buf ← store buf t.length 0
    let link ← str 0 buf 0
    if procPath <+: p ∧ colon ∈ link then return .skip c
    if link.head? = some slash then
      return .follow link { c with
        currentRoot := .guest, currentRootLen := V.prefixPath.length, follow := true }
    let a ← store c.currentPath (prevlen - 1) 0
    return .follow link { c with currentPath := a, currentPathLen := prevlen - 1, follow := true }

def inspect (c : Context) (comp : Bytes) (more : Bool) : Option (Verdict Context) := do
  if pathMax < comp.length + c.currentPathLen + 2 then return .ret (fail enoent) c
  let prevlen := c.currentPathLen
  let a ← blit c.currentPath prevlen comp
  let a ← store a (prevlen + comp.length) 0
  let c := { c with currentPath := a, currentPathLen := prevlen + comp.length }
  if c.unknownComponent then return .skip c
  let p ← str 0 c.currentPath 0
  match k.lstat p with
  | .error e =>
    if V.icaseEnabled ∧ e = enoent then .skip <$> icaseSearch k c prevlen else return .skip c
  | .ok kind =>
    if kind = .symlink ∧ (c.follow ∨ more) then enterLink V k c prevlen else return .skip c

def exitCheck (c : Context) : Option Context :=
  if 0 < c.currentRootLen ∧ c.currentPathLen = c.currentRootLen + exitPath.length then do
    let s ← str 0 c.currentPath c.currentRootLen
    if caseEq (s.take exitPath.length) exitPath then
      let a ← store c.currentPath 0 0
      return { c with
        currentPath := a, currentPathLen := 0, currentRoot := .host, currentRootLen := 0 }
    else return c
  else some c

variable (run : Bytes → Context → Option (ℤ × Context))

def component (c : Context) (comp : Bytes) (more : Bool) : Option (Flow Context) := do
  match ← inspect V k c comp more with
  | .skip c => .next <$> exitCheck c
  | .ret rv c => return .ret rv c
  | .follow link c' =>
    let (rv, c') ← run link c'
    let c' := { c' with follow := c.follow }
    if rv ≠ 0 then return .ret rv c' else .next <$> exitCheck c'

def iteration (c : Context) (comp : Bytes) (more : Bool) : Option (Flow Context) :=
  if comp = [dot] ∨ comp = [] then some (.next c)
  else do
    let c ← appendSlash c
    if comp = [dot, dot] then dotdot V c else component V k run c comp more

def loop : ℕ → Bytes → Context → Option (ℤ × Context)
  | 0, _, c => some (0, c)
  | n + 1, input, c =>
    if input = [] then some (0, c)
    else
      match iteration V k run c (nextComponent input).1 ((nextComponent input).2 ≠ []) with
      | none => none
      | some (.ret rv c) => some (rv, c)
      | some (.next c) => loop n (rest input) c

def start (input : Bytes) (c : Context) : Option (Bytes × Context) :=
  if input.head? = some slash then do
    let a ← strcpy 0 c.currentPath 0 (c.currentRoot.text V)
    let s ← str 0 a 0
    return (input.tail, { c with currentPath := a, currentPathLen := s.length })
  else some (input, c)

end Step

/-- `vchroot_run`, with `maxSymlinkDepth + 1 - symlink_depth` levels left. -/
def vchrootRun (V : Config) (k : Kernel) : ℕ → Bytes → Context → Option (ℤ × Context)
  | 0, _, c => some (fail eloop, c)
  | left + 1, input, c => do
    let (input, c) ← start V input c
    loop V k (vchrootRun V k left) input.length input c

/-- A place `vchroot_run` passes: the head of its loop, with the rest of the input, or the label
`ignore_symlink`. -/
inductive Point (γ : Type) where
  | head (input : Bytes) (c : γ)
  | label (c : γ)

def Point.val {γ : Type} : Point γ → γ
  | .head _ c => c
  | .label c => c

section Trace

variable (V : Config) (k : Kernel) (run : Bytes → Context → Option (ℤ × Context))
  (trace : Bytes → Context → List (Point Context))

def iterationTrace (c : Context) (comp : Bytes) (more : Bool) : List (Point Context) :=
  if comp = [dot] ∨ comp = [] then []
  else
    match appendSlash c with
    | none => []
    | some c =>
      if comp = [dot, dot] then []
      else
        match inspect V k c comp more with
        | some (.skip c) => [.label c]
        | some (.follow link c') =>
          trace link c' ++
            match run link c' with
            | none => []
            | some (rv, c') => if rv = 0 then [.label { c' with follow := c.follow }] else []
        | _ => []

def loopTrace : ℕ → Bytes → Context → List (Point Context)
  | 0, input, c => [.head input c]
  | n + 1, input, c =>
    .head input c ::
      if input = [] then []
      else
        iterationTrace V k run trace c (nextComponent input).1 ((nextComponent input).2 ≠ []) ++
          match iteration V k run c (nextComponent input).1 ((nextComponent input).2 ≠ []) with
          | some (.next c) => loopTrace n (rest input) c
          | _ => []

end Trace

/-- The places `vchrootRun` passes, in order, through all the links it follows. -/
def vchrootTrace (V : Config) (k : Kernel) : ℕ → Bytes → Context → List (Point Context)
  | 0, _, _ => []
  | left + 1, input, c =>
    match start V input c with
    | none => []
    | some (input, c) =>
      loopTrace V k (vchrootRun V k left) (vchrootTrace V k left) input.length input c

structure ExpandArgs where
  path : Bytes
  dfd : ℤ
  follow : Bool

def ExpandArgs.base (args : ExpandArgs) : ProcLink :=
  if args.dfd ≠ -100 then .fd args.dfd else .cwd

/-- The part of `vchroot_expand` before `vchroot_run`: the error it returns, or the context.
`junk` is what the stack held in `ctxt.current_path`. -/
def openContext (V : Config) (k : Kernel) (junk : Bytes) (args : ExpandArgs) (input : Bytes) :
    Option (ℤ ⊕ Context) :=
  let c : Context :=
    { currentRoot := .guest, currentRootLen := V.prefixPath.length, currentPath := junk
      currentPathLen := 0, unknownComponent := false, follow := args.follow }
  if input = [] then some (.inl (fail enoent))
  else if input.head? = some slash then some (.inr c)
  else
    match k.procLink args.base with
    | .error e => some (.inl (fail e))
    | .ok t => do
      let t := t.take (pathMax - 1)
      let a ← blit junk 0 t
      let n := if t = [slash] then 0 else t.length
      let a ← store a n 0
      let s ← str 0 a 0
      if n < V.prefixPath.length ∨ s.take V.prefixPath.length ≠ V.prefixPath then
        return .inr { c with
          currentPath := a, currentPathLen := n, currentRoot := .host, currentRootLen := 0 }
      else return .inr { c with currentPath := a, currentPathLen := n }

/-- `vchroot_expand`: the return code and `args->path` as it leaves it. -/
def vchrootExpand (V : Config) (k : Kernel) (junk : Bytes) (args : ExpandArgs) :
    Option (ℤ × Bytes) := do
  let input ← str 0 args.path 0
  match ← openContext V k junk args input with
  | .inl rv => return (rv, args.path)
  | .inr c =>
    let (rv, c) ← vchrootRun V k (maxSymlinkDepth + 1) input c
    let s ← (if 0 < c.currentPathLen then str 0 c.currentPath 0 else some [slash])
    let path ← strcpy 0 args.path 0 s
    return (rv, path)

def expandTrace (V : Config) (k : Kernel) (junk : Bytes) (args : ExpandArgs) :
    List (Point Context) :=
  match str 0 args.path 0 with
  | none => []
  | some input =>
    match openContext V k junk args input with
    | some (.inr c) => vchrootTrace V k (maxSymlinkDepth + 1) input c
    | _ => []

structure FdpathArgs where
  fd : ℤ
  path : Bytes
  maxlen : ℕ

def FdpathArgs.room (args : FdpathArgs) : ℕ := (args.maxlen + (2 ^ 64 - 1)) % 2 ^ 64

def vchrootFdpath (V : Config) (k : Kernel) (junk : Bytes) (args : FdpathArgs) :
    Option (ℤ × Bytes) :=
  match k.procLink (.fd args.fd) with
  | .error e => some (fail e, args.path)
  | .ok t => do
    let t := t.take (pathMax - 1)
    let link ← blit junk 0 t
    let link ← store link t.length 0
    let s ← str 0 link 0
    if V.prefixPath.length ≤ t.length ∧ s.take V.prefixPath.length = V.prefixPath then
      if args.room < t.length - V.prefixPath.length then return (fail enametoolong, args.path)
      let u ← str 0 link V.prefixPath.length
      let a ← strcpy 0 args.path 0 u
      let a ← (if a.head? = some 0 then strcpy 0 a 0 [slash] else some a)
      return (0, a)
    else
      if args.maxlen < (exitPath.length + 1) + t.length then
        return (fail enametoolong, args.path)
      let a ← blit args.path 0 exitPath
      let a ← blit a exitPath.length (link.take (t.length + 1))
      return (0, a)

/-- `vchroot_unexpand`: `args->path` as it leaves it; the return code is 0. -/
def vchrootUnexpand (V : Config) (path : Bytes) : Option Bytes :=
  if path.take V.prefixPath.length = V.prefixPath then do
    let u ← str 0 path V.prefixPath.length
    let a ← move path 0 V.prefixPath.length (u.length + 1)
    if a.head? = some 0 then strcpy 0 a 0 [slash] else return a
  else do
    let s ← str 0 path 0
    let a ← move path exitPath.length 0 (s.length + 1)
    blit a 0 exitPath

end Darling.Vchroot
