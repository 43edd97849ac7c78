import Darling.Ring
import Darling.Xattr

/-!
# `ext/file_handle.c`

Where `name_to_handle_at` is not supported, a reference is a place in a ring of saved names: a slot
and the generation that it had.
-/

namespace Darling.FileHandle

open Vchroot CArray
open Xattr (Errno GuestPath Stack System)

def eopnotsupp : ℕ+ := ⟨95, by decide⟩

/-- A vchroot, and what Linux answers in each working directory; the directory shows in the links of
`/proc` only, and in the descriptor if the thread has a directory of its own. -/
structure World (ι δ : Type*) where
  config : Config
  kernel : Kernel
  procLink : δ → ProcLink → Except ℕ+ Bytes
  procLink_nul : ∀ d l t, procLink d l = .ok t → 0 ∉ t
  wd : δ → ℤ
  lookup : Bool → Bytes → Except Errno ι
  errnos : ℕ → ℕ

/-- `struct SavedRef`; no path is `NULL`. -/
structure SavedRef where
  path : Option Bytes
  gen : UInt32

structure RefData where
  index : ℕ
  gen : UInt32
deriving DecidableEq

structure Globals where
  savedRefs : List SavedRef
  nextSavedRef : ℕ
  nextGen : UInt32

def slots : ℕ := 200

def Globals.initial : Globals := ⟨List.replicate slots ⟨none, 0⟩, 0, 0⟩

section Calls

variable {ι δ : Type*} (w : World ι δ) (d : δ)

def World.system : System ι where
  config := w.config
  kernel := { w.kernel with procLink := w.procLink d, procLink_nul := w.procLink_nul d }
  wd := w.wd d
  lookup := w.lookup
  errnos := w.errnos

def sysAccess (st : Stack) (filename : Bytes) : Option ℤ := do
  let (rv, out) ← (w.system d).expand st filename false
  if rv < 0 then return errnoLinuxToBsd w.errnos rv
  else
    let p ← str 0 out 0
    match w.lookup true p with
    | .error e => return errnoLinuxToBsd w.errnos (fail e)
    | .ok _ => return 0

def sysNameToHandle (g : Globals) (st st' : Stack) (name : Bytes) (follow : Bool) :
    Option (ℤ × Option RefData × Globals) := do
  let (rv, _) ← (w.system d).expand st name (!follow)
  if rv < 0 then return (errnoLinuxToBsd w.errnos rv, none, g)
  else
    let ret ← sysAccess w d st' name
    if ret = 0 then
      let savedRefs ← store g.savedRefs g.nextSavedRef ⟨some name, g.nextGen⟩
      return (0, some ⟨g.nextSavedRef, g.nextGen⟩,
        ⟨savedRefs, (g.nextSavedRef + 1) % slots, g.nextGen + 1⟩)
    else return (errnoLinuxToBsd w.errnos (fail eopnotsupp), none, g)

def sysHandleToName (g : Globals) (st : Stack) (ref : RefData) : Option (ℤ × Option Bytes) := do
  let saved ← g.savedRefs[ref.index]?
  if saved.gen = ref.gen then
    let path ← saved.path
    let name := path.take (4096 - 1)
    let ret ← sysAccess w d st name
    return (ret, some name)
  else return (fail enoent, none)

def blank : Stack :=
  ⟨List.replicate pathMax 0, List.replicate pathMax 0, List.length_replicate, List.length_replicate⟩

def hostPath (name : Bytes) (follow : Bool) : Option Bytes := do
  let (rv, out) ← (w.system d).expand blank name (!follow)
  if rv < 0 then none else str 0 out 0

def denotes (name : Bytes) (follow : Bool) : Option ι :=
  (hostPath w d name follow).bind ((w.system d).find follow)

end Calls

/-- A reference that was made, with the directory in which it was and the file it was made for. -/
structure Reference (ι δ : Type*) where
  data : RefData
  name : GuestPath
  follow : Bool
  cwd : δ
  file : Option ι

structure State (ι δ : Type*) where
  cwd : δ
  globals : Globals
  references : List (Reference ι δ)

def State.initial {ι δ : Type*} (d : δ) : State ι δ := ⟨d, .initial, []⟩

inductive Action (δ : Type*) where
  | chdir (d : δ)
  | nameToHandle (st st' : Stack) (name : GuestPath) (follow : Bool)
  | handleToName (st : Stack) (n : ℕ)

section Run

variable {ι δ : Type*} (w : World ι δ)

def step (s : State ι δ) : Action δ → State ι δ
  | .chdir d => { s with cwd := d }
  | .nameToHandle st st' name follow =>
    match sysNameToHandle w s.cwd s.globals st st' name.bytes follow with
    | some (_, some ref, g) =>
      { s with
        globals := g
        references := s.references ++
          [⟨ref, name, follow, s.cwd, denotes w s.cwd name.bytes follow⟩] }
    | _ => s
  | .handleToName _ _ => s

/-- `sys_handle_to_name` of the `n`-th reference fails with `ENOENT` or gives a name of its file,
and it does not fail if fewer than 200 references were saved after it. -/
def Correct (s : State ι δ) : Action δ → Prop
  | .handleToName st n => ∀ r, s.references[n]? = some r →
      ∃ ret name, sysHandleToName w s.cwd s.globals st r.data = some (ret, name) ∧
        (ret = fail enoent ∨
          ret = 0 ∧ ∃ p, name = some p ∧ denotes w s.cwd p r.follow = r.file) ∧
        (s.references.length - (n + 1) < slots → ret = 0)
  | _ => True

/-- What Linux shows of a directory, which is all that a relative path begins with. -/
def World.link (d : δ) : Except ℕ+ Bytes :=
  w.procLink d (if w.wd d ≠ -100 then .fd (w.wd d) else .cwd)

/-- While its slot is its own, a reference is used with an absolute name or in the directory that it
was made in; later, not when the generations have come round to its own. -/
def Condition (s : State ι δ) : Action δ → Prop
  | .handleToName _ n => ∀ r, s.references[n]? = some r →
      let later := s.references.length - (n + 1)
      if later < slots then r.name.bytes.head? = some slash ∨ w.link s.cwd = w.link r.cwd
      else ¬ 2 ^ 29 ∣ later / slots
  | _ => True

end Run

end Darling.FileHandle
