import Darling.SimpleReadline
import Darling.Xattr

/-!
# `statfs` and `fstatfs`

`sys_statfs64` and `sys_fstatfs64` pass on what Linux says of the file system and look for its mount
in `/proc/self/mounts`: of the lines whose second word is a prefix of the path the longest, and the
last one of these.  The one looks for the host path, the other for the guest path of a descriptor.
-/

namespace Darling.Statfs

open CArray Vchroot Readline SimpleReadline

abbrev Chars (n : ℕ) := {a : Bytes // a.length = n}

def Chars.strlcpy {n : ℕ} (dst : Chars (n + 1)) (src : Bytes) : Chars (n + 1) where
  val := src.take n ++ 0 :: dst.val.drop ((src.take n).length + 1)
  property := by
    have := List.length_take_le n src
    rw [List.length_append, List.length_cons, List.length_drop, dst.property]
    omega

def Chars.clear {n : ℕ} (dst : Chars n) : Chars n where
  val := dst.val.set 0 0
  property := by rw [List.length_set, dst.property]

structure LinuxStatfs64 where
  fType : BitVec 64
  fBsize : BitVec 64
  fBlocks : BitVec 64
  fBfree : BitVec 64
  fBavail : BitVec 64
  fFiles : BitVec 64
  fFfree : BitVec 64
  fFsid : BitVec 64
  fFlags : BitVec 64

structure BsdStatfs64 where
  fBsize : BitVec 32
  fIosize : BitVec 32
  fBlocks : BitVec 64
  fBfree : BitVec 64
  fBavail : BitVec 64
  fFiles : BitVec 64
  fFfree : BitVec 64
  fFsid : BitVec 64
  fType : BitVec 32
  fFlags : BitVec 32
  fFstypename : Chars 16
  fMntonname : Chars 1024
  fMntfromname : Chars 1024

def statfsLinuxToBsd64 (lstat : LinuxStatfs64) (stat : BsdStatfs64) : BsdStatfs64 :=
  { stat with
    fType := lstat.fType.setWidth 32
    fBsize := lstat.fBsize.setWidth 32
    fBlocks := lstat.fBlocks
    fBfree := lstat.fBfree
    fBavail := lstat.fBavail
    fFiles := lstat.fFiles
    fFfree := lstat.fFfree
    fFsid := lstat.fFsid
    fFlags := lstat.fFlags.setWidth 32 }

/-- `strtok_r(str, " ", &saveptr)` at an index of the array, or at `NULL`: the index of the token,
the array with its end marked, and `saveptr`. -/
def strtokR (a : Bytes) : Option ℕ → Option (Option (ℕ × Bytes × Option ℕ))
  | none => some none
  | some i => do
    let s ← str 0 a i
    let blanks := (s.takeWhile (· = 32)).length
    let token := (s.dropWhile (· = 32)).takeWhile (· ≠ 32)
    let stop := i + blanks + token.length
    if token = [] then return none
    else if blanks + token.length = s.length then return some (i + blanks, a, none)
    else
      let a ← store a stop 0
      return some (i + blanks, a, some (stop + 1))

structure Scan where
  line : Bytes
  rbuf : SimpleReadlineBuf
  file : Input
  maxLen : ℕ
  buf : BsdStatfs64

def scanLine (path : Bytes) (s : Scan) : Option Scan := do
  match ← strtokR s.line (some 0) with
  | none => return s
  | some (mntfrom, line, saveptr) =>
    match ← strtokR line saveptr with
    | none => return { s with line := line }
    | some (p, line, saveptr) =>
      let mnton ← str 0 line p
      let len := mnton.length
      if path.take len ≠ mnton ∨ len < s.maxLen then return { s with line := line }
      else
        let buf := { s.buf with fMntonname := s.buf.fMntonname.strlcpy mnton }
        match ← strtokR line saveptr with
        | none => return { s with line := line, maxLen := len, buf := buf }
        | some (p, line, _) =>
          let fstype ← str 0 line p
          let source ← str 0 line mntfrom
          let buf := { buf with
            fFstypename := buf.fFstypename.strlcpy fstype
            fMntfromname := buf.fMntfromname.strlcpy source }
          return { s with line := line, maxLen := len, buf := buf }

def scanLoop (path : Bytes) : ℕ → Scan → Option BsdStatfs64
  | 0, _ => none
  | fuel + 1, s => do
    match ← call s.line (s.rbuf, s.file) with
    | (none, _) => return s.buf
    | (some line, (rbuf, file)) =>
      let s ← scanLine path { s with line := line, rbuf := rbuf, file := file }
      scanLoop path fuel s

structure Frame where
  rbuf : Chars 512
  line : Chars 512
  path : Chars 1024

def findMount (mounts : Except ℤ Input) (fr : Frame) (path : Bytes)
    (clear : BsdStatfs64 → BsdStatfs64) (buf : BsdStatfs64) : Option (ℤ × BsdStatfs64) :=
  match mounts with
  | .error ret => some (ret, buf)
  | .ok file => do
    let buf ← scanLoop path (file.text.length + 1)
      ⟨fr.line.val, simpleReadlineInit fr.rbuf.val, file, 0, clear buf⟩
    return (0, buf)

def BsdStatfs64.clearNames (buf : BsdStatfs64) : BsdStatfs64 :=
  { buf with
    fMntonname := buf.fMntonname.clear
    fFstypename := buf.fFstypename.clear
    fMntfromname := buf.fMntfromname.clear }

/-- What Linux says of the file system of a host path and of a descriptor, and `/proc/self/mounts`
as `sys_open` opens it. -/
structure Host where
  statfs : Bytes → Except Xattr.Errno LinuxStatfs64
  fstatfs : ℤ → Except Xattr.Errno LinuxStatfs64
  mounts : Except ℤ Input

section Calls

variable {ι : Type*} (w : Xattr.System ι) (h : Host) (st : Xattr.Stack) (fr : Frame)

def sysStatfs64 (path : Bytes) (buf : BsdStatfs64) : Option (ℤ × BsdStatfs64) := do
  let (ret, vc) ← w.expand st path true
  if ret < 0 then return (errnoLinuxToBsd w.errnos ret, buf)
  else
    let path ← str 0 vc 0
    match h.statfs path with
    | .error e => return (errnoLinuxToBsd w.errnos (fail e.val), buf)
    | .ok lbuf => findMount h.mounts fr path .clearNames (statfsLinuxToBsd64 lbuf buf)

def sysFstatfs64 (fd : ℤ) (buf : BsdStatfs64) : Option (ℤ × BsdStatfs64) :=
  match h.fstatfs fd with
  | .error e => some (errnoLinuxToBsd w.errnos (fail e.val), buf)
  | .ok lbuf => do
    let buf := statfsLinuxToBsd64 lbuf buf
    let (ret, path) ← vchrootFdpath w.config w.kernel st.junk ⟨fd, fr.path.val, 1024⟩
    if ret < 0 then return (ret, buf)
    else
      let path ← str 0 path 0
      findMount h.mounts fr path (fun buf => { buf.clearNames with fIosize := 512 }) buf

end Calls

/-- What the lines say: the text is cut at its newlines, or where the buffer of 512 bytes is full,
up to an empty line. -/
def pieces : ℕ → Bytes → List Bytes
  | 0, _ => []
  | n + 1, t =>
    if t.idxOf 10 = 0 then []
    else t.take (min 511 (t.idxOf 10)) :: pieces n (t.drop (min 511 (t.idxOf 10) + 1))

def word (s : Bytes) : Option (Bytes × Bytes) :=
  let s := s.dropWhile (· = 32)
  if s = [] then none else some (s.takeWhile (· ≠ 32), (s.dropWhile (· ≠ 32)).tail)

structure Entry where
  mntfrom : Bytes
  mnton : Bytes
  fstype : Option Bytes

def entry (s : Bytes) : Option Entry := do
  let (mntfrom, s) ← word s
  let (mnton, s) ← word s
  return ⟨mntfrom, mnton, (word s).map Prod.fst⟩

def entries (text : Bytes) : List Entry :=
  (pieces (text.length + 1) text).filterMap (entry ∘ Node.cText)

@[ext]
structure Names where
  mnton : Bytes
  fstype : Bytes
  mntfrom : Bytes
  deriving DecidableEq

/-- A line that fits the path and is not shorter takes the place of the one before. -/
def Names.see (path : Bytes) (c : Names) (e : Entry) : Names :=
  if e.mnton <+: path ∧ c.mnton.length ≤ e.mnton.length then
    match e.fstype with
    | none => { c with mnton := e.mnton }
    | some fstype => ⟨e.mnton, fstype, e.mntfrom⟩
  else c

def chosen (path : Bytes) (es : List Entry) : Names := es.foldl (Names.see path) ⟨[], [], []⟩

def Names.shown (c : Names) : Names := ⟨c.mnton.take 1023, c.fstype.take 15, c.mntfrom.take 1023⟩

/-- A mount point that the one path begins with and the other does not is shorter than one that both
begin with. -/
def Covered (es : List Entry) (path path' : Bytes) : Prop :=
  ∀ e ∈ es, e.mnton <+: path → ¬ e.mnton <+: path' →
    ∃ e' ∈ es, e'.mnton <+: path ∧ e'.mnton <+: path' ∧ e.mnton.length < e'.mnton.length

/-- The buffer holds these names. -/
structure BsdStatfs64.Shows (buf : BsdStatfs64) (c : Names) : Prop where
  mnton : Spells 0 buf.fMntonname.val c.mnton
  fstype : Spells 0 buf.fFstypename.val c.fstype
  mntfrom : Spells 0 buf.fMntfromname.val c.mntfrom

/-- Two calls that return 0 report the same names and the same `f_iosize`. -/
def SameReport (x y : Option (ℤ × BsdStatfs64)) : Prop :=
  ∃ b b' c, x = some (0, b) ∧ y = some (0, b') ∧ b.fIosize = b'.fIosize ∧ b.Shows c ∧ b'.Shows c

def Plain (s : Bytes) : Prop := 32 ∉ s ∧ 10 ∉ s ∧ 0 ∉ s

instance : DecidablePred Plain := fun s => inferInstanceAs (Decidable (32 ∉ s ∧ 10 ∉ s ∧ 0 ∉ s))

/-- A mount, as Linux writes it: what it writes of the mount point are the names of the
directories. -/
structure Mount where
  source : Bytes
  point : List Bytes
  fstype : Bytes
  rest : Bytes
  source_plain : Plain source
  point_names : ∀ c ∈ point, c ≠ [] ∧ slash ∉ c
  point_plain : ∀ c ∈ point, Plain c
  fstype_plain : Plain fstype
  fstype_ne : fstype ≠ []
  fstype_head : fstype.head? ≠ some slash
  rest_plain : 10 ∉ rest ∧ 0 ∉ rest

def Mount.line (m : Mount) : Bytes :=
  m.source ++ 32 :: (absolute m.point ++ 32 :: (m.fstype ++ 32 :: m.rest))

def Mount.names (m : Mount) : Names := ⟨absolute m.point, m.fstype.take 15, m.source⟩

def tableText (ms : List Mount) : Bytes := ms.flatMap fun m => m.line ++ [10]

end Darling.Statfs
