import Darling.UnorderedMap
import Darling.Vchroot

/-!
# Extended attributes

`sys_setxattr`, `sys_getxattr`, `sys_listxattr` and `sys_removexattr`: each makes at most one Linux
call, for a path that it has expanded or not.  Linux keeps the attributes as a map from a file and a
name to a value.
-/

namespace Darling.Xattr

open Vchroot CArray

def enodata : ℕ+ := ⟨61, by decide⟩

def erange : ℕ+ := ⟨34, by decide⟩

def e2big : ℕ+ := ⟨7, by decide⟩

abbrev Errno := {e : ℕ+ // (e : ℕ) < 4096}

def sizeMax : ℕ := 65536

section Linux

variable {ι : Type*} [DecidableEq ι]

abbrev Store (ι : Type*) := UnorderedMap (ι × Bytes) Bytes

/-- The calls, with the `l` variants as those that do not follow.  The flags of `setxattr` are 0. -/
inductive LinuxCall where
  | getxattr (path name : Bytes) (size : ℕ)
  | setxattr (follow : Bool) (path name value : Bytes)
  | listxattr (follow : Bool) (path : Bytes) (size : ℕ)
  | removexattr (follow : Bool) (path name : Bytes)

def LinuxCall.path : LinuxCall → Bytes
  | getxattr path _ _ | setxattr _ path _ _ | listxattr _ path _ | removexattr _ path _ => path

def LinuxCall.follow : LinuxCall → Bool
  | getxattr _ _ _ => true
  | setxattr follow _ _ _ | listxattr follow _ _ | removexattr follow _ _ => follow

/-- What a call returns, and what it has stored in the buffer. -/
structure Answer where
  ret : ℤ
  out : Option Bytes

def copyOut (size : ℕ) (text : Bytes) : Answer :=
  if sizeMax < text.length then ⟨fail e2big, none⟩
  else if size = 0 then ⟨text.length, none⟩
  else if size < text.length then ⟨fail erange, none⟩
  else ⟨text.length, some text⟩

def names (s : Store ι) (f : ι) : List Bytes := (s.keys.filter (·.1 = f)).map (·.2)

def namesText (names : List Bytes) : Bytes := names.flatMap (· ++ [0])

def LinuxCall.onFile (s : Store ι) (f : ι) : LinuxCall → Answer × Store ι
  | getxattr _ name size =>
    match s.lookup (f, name) with
    | none => (⟨fail enodata, none⟩, s)
    | some value => (copyOut size value, s)
  | setxattr _ _ name value =>
    if sizeMax < value.length then (⟨fail e2big, none⟩, s)
    else (⟨0, none⟩, s.insert (f, name) value)
  | listxattr _ _ size => (copyOut size (namesText (names s f)), s)
  | removexattr _ _ name =>
    if (f, name) ∈ s then (⟨0, none⟩, s.erase (f, name)) else (⟨fail enodata, none⟩, s)

end Linux

/-- A vchroot, the answers Linux gives to `vchroot_expand`, the thread's working directory, and the
file that Linux finds under a host path, with a link at its end followed or not. -/
structure System (ι : Type*) where
  config : Config
  kernel : Kernel
  wd : ℤ
  lookup : Bool → Bytes → Except Errno ι
  errnos : ℕ → ℕ

structure Stack where
  path : Bytes
  junk : Bytes
  path_length : path.length = pathMax
  junk_length : junk.length = pathMax

/-- How a wrapper ends: it returns, or makes a call and maps what that returns. -/
inductive Request where
  | ret (rv : ℤ)
  | call (c : LinuxCall) (finish : ℤ → ℤ)

def int (r : ℤ) : ℤ := r.bmod (2 ^ 32)

section Wrappers

variable {ι : Type*} (w : System ι)

def System.expand (st : Stack) (path : Bytes) (nofollow : Bool) : Option (ℤ × Bytes) := do
  let buf ← strcpy 0 st.path 0 path
  vchrootExpand w.config w.kernel st.junk ⟨buf, w.wd, !nofollow⟩

def System.finish (ret : ℤ) : ℤ :=
  if int ret < 0 then errnoLinuxToBsd w.errnos (int ret) else int ret

def sysGetxattr (st : Stack) (path name : Bytes) (size pos : ℕ) (nofollow : Bool) :
    Option Request :=
  if pos ≠ 0 then some (.ret (fail erange))
  else do
    let (rv, out) ← w.expand st path nofollow
    if rv < 0 then return .ret (errnoLinuxToBsd w.errnos rv)
    else
      let p ← str 0 out 0
      return .call (.getxattr p name size) fun ret =>
        if int ret < 0 then errnoLinuxToBsd w.errnos (int ret) else 0

def sysSetxattr (path name value : Bytes) (pos : ℕ) (nofollow : Bool) : Option Request :=
  if pos ≠ 0 then some (.ret (fail erange))
  else some (.call (.setxattr (!nofollow) path name value) w.finish)

def sysListxattr (st : Stack) (path : Bytes) (size : ℕ) (nofollow : Bool) : Option Request := do
  let (rv, _) ← w.expand st path nofollow
  if rv < 0 then return .ret (errnoLinuxToBsd w.errnos rv)
  else return .call (.listxattr (!nofollow) path size) w.finish

def sysRemovexattr (path name : Bytes) (nofollow : Bool) : Option Request :=
  some (.call (.removexattr (!nofollow) path name) w.finish)

end Wrappers

structure GuestPath where
  bytes : Bytes
  nul_notMem : 0 ∉ bytes
  length_lt : bytes.length < pathMax

inductive Call where
  | set (name value : Bytes)
  | get (name : Bytes) (size : ℕ)
  | list (size : ℕ)
  | remove (name : Bytes)

/-- A call at position 0.  `refusal` is why Linux does not carry it out, if it does not. -/
structure Event where
  call : Call
  path : GuestPath
  nofollow : Bool
  stack : Stack
  refusal : Option Errno

/-- The attributes that Linux has, and those that were set on the files the guest paths denote. -/
structure State (ι : Type*) where
  linux : Store ι
  guest : Store ι

section Run

variable {ι : Type*} [DecidableEq ι] (w : System ι)

def Event.request (e : Event) : Option Request :=
  match e.call with
  | .set name value => sysSetxattr w e.path.bytes name value 0 e.nofollow
  | .get name size => sysGetxattr w e.stack e.path.bytes name size 0 e.nofollow
  | .list size => sysListxattr w e.stack e.path.bytes size e.nofollow
  | .remove name => sysRemovexattr w e.path.bytes name e.nofollow

def System.find (follow : Bool) (p : Bytes) : Option ι :=
  match w.lookup follow p with
  | .error _ => none
  | .ok f => some f

def Event.actsOn (e : Event) : Option ι :=
  match e.request w with
  | some (.call c _) => w.find c.follow c.path
  | _ => none

def Event.hostPath (e : Event) : Option Bytes := do
  let (rv, out) ← w.expand e.stack e.path.bytes e.nofollow
  if rv < 0 then none else str 0 out 0

def Event.denotes (e : Event) : Option ι := (e.hostPath w).bind (w.find (!e.nofollow))

def System.perform (s : Store ι) (refusal : Option Errno) (c : LinuxCall) : Answer × Store ι :=
  match w.lookup c.follow c.path, refusal with
  | .error e, _ => (⟨fail e, none⟩, s)
  | .ok _, some e => (⟨fail e, none⟩, s)
  | .ok f, none => c.onFile s f

def Event.answer (s : Store ι) (e : Event) : Option (Answer × Store ι) :=
  match e.request w with
  | none => none
  | some (.ret rv) => some (⟨rv, none⟩, s)
  | some (.call c finish) =>
    let (a, s) := w.perform s e.refusal c
    some (⟨finish a.ret, a.out⟩, s)

def Event.apply (e : Event) (s : Store ι) : Store ι :=
  match e.call, e.denotes w with
  | .set name value, some f => s.insert (f, name) value
  | .remove name, some f => s.erase (f, name)
  | _, _ => s

def State.step (s : State ι) (e : Event) : State ι :=
  match e.answer w s.linux with
  | none => s
  | some (a, linux) => ⟨linux, if 0 ≤ a.ret then e.apply w s.guest else s.guest⟩

/-- The call acts on the file that its path denotes, and its answer is from the attributes set. -/
def Correct (s : State ι) (e : Event) : Prop :=
  e.actsOn w = e.denotes w ∧
    ∀ a linux, e.answer w s.linux = some (a, linux) → 0 ≤ a.ret →
      match e.call with
      | .get name size => ∃ f value, e.denotes w = some f ∧ s.guest.lookup (f, name) = some value ∧
          a = ⟨value.length, if size = 0 then none else some value⟩
      | .list size => ∃ f ns, e.denotes w = some f ∧ ns.Nodup ∧ (∀ n, n ∈ ns ↔ (f, n) ∈ s.guest) ∧
          a = ⟨(namesText ns).length, if size = 0 then none else some (namesText ns)⟩
      | _ => True

/-- The path itself leads Linux to the same file; for `sys_getxattr`, the host path does so whether
or not a link is followed, and a value that is read is empty. -/
def Condition (s : State ι) (e : Event) : Prop :=
  match e.call with
  | .set _ _ | .remove _ => w.find (!e.nofollow) e.path.bytes = e.denotes w
  | .list _ => (∃ rv out, w.expand e.stack e.path.bytes e.nofollow = some (rv, out) ∧ 0 ≤ rv) →
      w.find (!e.nofollow) e.path.bytes = e.denotes w
  | .get name size => (e.hostPath w).bind (w.find true) = e.denotes w ∧
      ∀ f value, e.denotes w = some f → s.linux.lookup (f, name) = some value →
        e.refusal = none → value.length ≤ sizeMax → (size = 0 ∨ value.length ≤ size) → value = []

end Run

end Darling.Xattr
