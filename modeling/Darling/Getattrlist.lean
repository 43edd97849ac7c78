import Darling.FdTable
import Darling.Getdirentries
import Darling.Xattr

/-!
# `xattr/getattrlist_generic.c`

`sys_getattrlistat` and `sys_fgetattrlist` are one text, compiled with and without a path.  Linux
keeps the position in a directory with the open file description, which the descriptors that `dup`
makes share.
-/

namespace Darling.Getattrlist

open CArray Getdirentries

structure Description (ι : Type) where
  file : ι
  pos : ℕ

/-- What the calls find: the descriptors, with the number of the description each refers to, the
entries of the files that are directories, the values of `com.apple.FinderInfo` and
`com.apple.ResourceFork`, and the file under a host path. -/
structure World (ι : Type) where
  table : Table ℕ
  descs : List (Description ι)
  entries : ι → Option (List Entry)
  finderInfo : ι → Option Bytes
  resourceFork : ι → Option Bytes
  lookup : Bytes → Option ι

namespace World

variable {ι : Type} (w : World ι)

def desc (fd : ℤ) : Option (ℕ × Description ι) := do
  let d ← w.table.get fd
  let x ← w.descs[d.file]?
  return (d.file, x)

def put (i : ℕ) (x : Description ι) : World ι := { w with descs := w.descs.set i x }

def getdents (fd : ℤ) (size : ℕ) : (ℤ × List Entry) × World ι :=
  match w.desc fd with
  | none => ((-ebadf, []), w)
  | some (i, x) =>
    match w.entries x.file with
    | none => ((fail enotdir, []), w)
    | some es =>
      let r := getdents64 (fail einval) size (es.drop x.pos)
      ((r.1, r.2.1), w.put i { x with pos := x.pos + r.2.1.length })

def dup (fd : ℤ) : ℤ × World ι :=
  let r := w.table.dup fd
  (r.1, { w with table := r.2 })

def close (fd : ℤ) : World ι := { w with table := (w.table.close fd).2 }

def opendir (path : Bytes) : ℤ × World ι :=
  match w.lookup path with
  | none => (fail enoent, w)
  | some f =>
    if (w.entries f).isNone then (fail enotdir, w)
    else
      let r := w.table.alloc ⟨w.descs.length, false⟩
      if r.1 < 0 then (r.1, w) else (r.1, { w with table := r.2, descs := w.descs ++ [⟨f, 0⟩] })

end World

inductive Source where
  | fd (fd : ℤ)
  | path (p : Bytes)

variable {ι : Type}

def Source.file (w : World ι) : Source → Option ι
  | .fd n => (w.desc n).map (·.2.file)
  | .path p => w.lookup p

def Source.missing : Source → ℤ
  | .fd _ => -ebadf
  | .path _ => fail enoent

def Source.getxattr (w : World ι) (src : Source) (size : ℕ) : Xattr.Answer :=
  match src.file w with
  | none => ⟨src.missing, none⟩
  | some f =>
    match w.finderInfo f with
    | none => ⟨fail Xattr.enodata, none⟩
    | some v => Xattr.copyOut size v

def Source.tmpFd (w : World ι) : Source → ℤ × World ι
  | .fd n => w.dup n
  | .path p => w.opendir p

def countLoop (tmpFd : ℤ) : ℕ → World ι → ℕ → Option (ℕ × World ι)
  | 0, _, _ => none
  | fuel + 1, w, count =>
    let r := w.getdents tmpFd 1024
    if r.1.1 ≤ 0 then some (count, r.2)
    else countLoop tmpFd fuel r.2 ((count + r.1.2.length) % 2 ^ 32)

def countFuel (w : World ι) (fd : ℤ) : ℕ :=
  match w.desc fd with
  | none => 1
  | some (_, x) => ((w.entries x.file).getD []).length + 1

/-- The number stored for `ATTR_DIR_ENTRYCOUNT`.  Errors leave what was counted. -/
def countEntries (w : World ι) (src : Source) : Option (ℕ × World ι) :=
  let r := src.tmpFd w
  if r.1 < 0 then some (0, r.2)
  else do
    let c ← countLoop r.1 (countFuel r.2 r.1) r.2 0
    return (c.1, c.2.close r.1)

structure AttrList where
  bitmapcount : ℕ
  commonattr : ℕ
  volattr : ℕ
  dirattr : ℕ
  fileattr : ℕ
  forkattr : ℕ

def attrCmnObjtag : ℕ := 0x10
def attrCmnFndrinfo : ℕ := 0x4000
def attrDirEntrycount : ℕ := 0x2
def attrFileRsrclength : ℕ := 0x1000

namespace AttrList

variable (a : AttrList)

def Supported : Prop :=
  5 ≤ a.bitmapcount ∧ a.commonattr &&& (attrCmnFndrinfo ||| attrCmnObjtag) = a.commonattr ∧
    a.volattr &&& 0 = a.volattr ∧ a.dirattr &&& attrDirEntrycount = a.dirattr ∧
    a.fileattr &&& attrFileRsrclength = a.fileattr ∧ a.forkattr &&& 0 = a.forkattr

instance : Decidable a.Supported := inferInstanceAs (Decidable (_ ∧ _))

def fndrinfo : Bool := a.commonattr &&& attrCmnFndrinfo ≠ 0
def objtag : Bool := a.commonattr &&& attrCmnObjtag ≠ 0
def entrycount : Bool := a.dirattr &&& attrDirEntrycount ≠ 0
def rsrclength : Bool := a.fileattr &&& attrFileRsrclength ≠ 0

def spaceNeeded : ℕ :=
  4 + (if a.fndrinfo then 32 else 0) + (if a.rsrclength then 8 else 0) +
    (if a.objtag then 4 else 0) + (if a.entrycount then 4 else 0)

end AttrList

def vtHfs : ℕ := 16

def reportFullsize (options : ℕ) : Bool := options &&& 4 ≠ 0

abbrev Cursor := Bytes × ℕ

def noFinderInfo : Bytes := List.replicate 32 0

/-- The attributes in turn; `getxattr` and `count` are what is found for the file. -/
def storeFndrinfo (getxattr : ℕ → Xattr.Answer) (c : Cursor) : Option Cursor := do
  let r := getxattr 32
  let buf ← match r.out with
    | none => some c.1
    | some v => blit c.1 c.2 v
  let buf ← if r.ret < 0 then blit buf c.2 noFinderInfo else some buf
  return (buf, c.2 + 32)

def storeRsrclength (getxattr : ℕ → Xattr.Answer) (c : Cursor) : Option Cursor := do
  let rv := (getxattr 0).ret
  let buf ← blit c.1 c.2 (le 4 (if rv < 0 then 0 else rv.toNat))
  return (buf, c.2 + 4)

def storeWord (x : ℕ) (c : Cursor) : Option Cursor := do
  let buf ← blit c.1 c.2 (le 4 x)
  return (buf, c.2 + 4)

def ifSelected (b : Bool) (f : Cursor → Option Cursor) (c : Cursor) : Option Cursor :=
  if b then f c else some c

def storeAttributes (a : AttrList) (getxattr : ℕ → Xattr.Answer) (count : ℕ) (ourBuffer : Bytes) :
    Option Bytes := do
  let c ← ifSelected a.fndrinfo (storeFndrinfo getxattr) (ourBuffer, 4)
  let c ← ifSelected a.rsrclength (storeRsrclength getxattr) c
  let c ← ifSelected a.objtag (storeWord vtHfs) c
  let c ← ifSelected a.entrycount (storeWord count) c
  return c.1

/-- The end of the call: the length word and the copy to the caller's buffer. -/
def copyAttributes (spaceNeeded : ℕ) (ourBuffer attributeBuffer : Bytes) (bufferSize options : ℕ) :
    Option Bytes := do
  let bufferSize :=
    if ¬ reportFullsize options ∧ bufferSize < spaceNeeded then spaceNeeded else bufferSize
  let ourBuffer ← blit ourBuffer 0 (le 4 bufferSize)
  let bytes ← slice ourBuffer 0 (min bufferSize spaceNeeded)
  blit attributeBuffer 0 bytes

def selectedCount (w : World ι) (src : Source) (a : AttrList) : Option (ℕ × World ι) :=
  if a.entrycount then countEntries w src else some (0, w)

/-- What a call returns, the caller's buffer, and the world it leaves.  `stack` is what the stack
held in `ourBuffer`. -/
def getattrlist (w : World ι) (src : Source) (stack : ℕ → Byte) (alist : Option AttrList)
    (attributeBuffer : Bytes) (bufferSize options : ℕ) : Option (ℤ × Bytes × World ι) :=
  match alist with
  | none => some (fail efault, attributeBuffer, w)
  | some a =>
    if ¬ a.Supported then some (fail einval, attributeBuffer, w)
    else do
      let (count, w') ← selectedCount w src a
      let ourBuffer ← storeAttributes a (src.getxattr w) count
        ((List.range a.spaceNeeded).map stack)
      let out ← copyAttributes a.spaceNeeded ourBuffer attributeBuffer bufferSize options
      return (0, out, w')

def sysFgetattrlist (w : World ι) (fd : ℤ) := getattrlist w (.fd fd)

/-- The path is expanded first; `none` is a null pointer. -/
def sysGetattrlistat (w : World ι) (expand : Bool → Bytes → Option (ℤ × Bytes))
    (path : Option Bytes) (stack : ℕ → Byte) (alist : Option AttrList) (attributeBuffer : Bytes)
    (bufferSize options : ℕ) : Option (ℤ × Bytes × World ι) :=
  if alist.isNone then some (fail efault, attributeBuffer, w)
  else
    match path with
    | none => some (fail efault, attributeBuffer, w)
    | some path => do
      let (rv, host) ← expand (options &&& 1 = 0) path
      if rv < 0 then return (rv, attributeBuffer, w)
      else getattrlist w (.path host) stack alist attributeBuffer bufferSize options

end Darling.Getattrlist
