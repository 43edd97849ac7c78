import Darling.CArray
import Darling.Kernel
import Darling.Proofs.Endian
import Mathlib.Algebra.GroupWithZero.Nat

/-!
# `dirent/getdirentries.c`

`sys_getdirentries` and `sys_getdirentries64` read a batch of Linux records into a buffer of their
own and write them out as BSD records, in two layouts.  `getdents64` returns the longest run of
entries that fits the buffer and moves the position of the directory past them.
-/

namespace Darling.Getdirentries

open CArray

structure Entry where
  ino : ℕ
  type : ℕ
  name : Bytes
  name_nul : 0 ∉ name
  name_ne : name ≠ []
  name_le : name.length ≤ 255

def Entry.linuxReclen (e : Entry) : ℕ := (19 + e.name.length + 1 + 7) / 8 * 8

def run (size : ℕ) : List Entry → List Entry
  | [] => []
  | e :: es => if e.linuxReclen ≤ size then e :: run (size - e.linuxReclen) es else []

/-- The return code, the records in the buffer, and the entries left.  `stuck` is what the call
returns when there are entries left and not one of them fits. -/
def getdents64 (stuck : ℤ) (size : ℕ) (dir : List Entry) : ℤ × List Entry × List Entry :=
  let batch := run size dir
  (if batch = [] ∧ dir ≠ [] then stuck else ((batch.map Entry.linuxReclen).sum : ℕ), batch,
    dir.drop batch.length)

/-- A BSD record: `sizeof` its struct, the offsets of `d_name` and `d_reclen`, the least size of a
record (`BSD_DIRENT_MIN_SIZE`), and what is stored in front of `d_name`, for an entry and the
`d_reclen` it is given. -/
structure Layout where
  sizeof : ℕ
  nameOff : ℕ
  reclenOff : ℕ
  minSize : ℕ
  header : Entry → ℕ → Bytes
  nameOff_le : nameOff ≤ sizeof
  sizeof_le : sizeof ≤ 64
  header_length : ∀ e r, (header e r).length = nameOff
  load_reclen : ∀ e r, r < 2 ^ 16 → load 2 (header e r) reclenOff = some r

def linuxMinSize : ℕ := align (24 + 2) 8

def roundTo4 (reclen : ℕ) : ℕ :=
  if reclen % 4 ≠ 0 then (reclen + 3) % 2 ^ 16 / 4 * 4 else reclen

section Call

variable (L : Layout)

def Layout.reclen (e : Entry) : ℕ := roundTo4 (L.sizeof + e.name.length + 1)

def Layout.record (e : Entry) : Bytes := L.header e (L.reclen e) ++ (e.name ++ [0])

/-- The loop over the batch: `opos` and the caller's buffer as it leaves them. -/
def emit : List Entry → ℕ → Bytes → Option (ℕ × Bytes)
  | [], opos, ibuf => some (opos, ibuf)
  | e :: es, opos, ibuf =>
    if opos < ibuf.length then
      if ibuf.length - opos < L.sizeof + e.name.length + 1 then some (opos, ibuf)
      else do
        let ibuf ← blit ibuf opos (L.record e)
        emit es (opos + L.reclen e) ibuf
    else some (opos, ibuf)

def Layout.bufSize (len : ℕ) : ℕ := min 20 (len / L.minSize) * linuxMinSize

structure Result where
  ret : ℤ
  ibuf : Bytes
  basep : Option ℤ
  dir : List Entry

def getdirentries (table : ℕ → ℕ) (stuck : ℤ) (ibuf : Bytes) (basep : Option ℤ)
    (dir : List Entry) : Option Result :=
  let basep := basep.map fun _ => 0
  let (ret, batch, dir) := getdents64 stuck (L.bufSize ibuf.length) dir
  if ret < 0 then some ⟨errnoLinuxToBsd table ret, ibuf, basep, dir⟩
  else (emit L batch 0 ibuf).map fun r => ⟨r.1, r.2, basep, dir⟩

end Call

/-- `struct bsd_dirent`: `d_ino`, `d_reclen`, `d_type`, `d_namlen`. -/
def bsdDirent : Layout where
  sizeof := 8
  nameOff := 8
  reclenOff := 4
  minSize := align (8 + 2) 4
  header e r := le 4 e.ino ++ (le 2 r ++ (le 1 e.type ++ le 1 e.name.length))
  nameOff_le := by decide
  sizeof_le := by decide
  header_length e r := rfl
  load_reclen e r h :=
    (load_field (u := le 4 e.ino) (le_length 2 r)).trans (congrArg some (unle_le_of_lt h))

/-- `struct bsd_dirent64`: `d_ino`, `d_seekoff`, `d_reclen`, `d_namlen`, `d_type`. -/
def bsdDirent64 : Layout where
  sizeof := 24
  nameOff := 21
  reclenOff := 16
  minSize := align (24 + 2) 4
  header e r := le 8 e.ino ++ (le 8 0 ++ (le 2 r ++ (le 2 e.name.length ++ le 1 e.type)))
  nameOff_le := by decide
  sizeof_le := by decide
  header_length e r := rfl
  load_reclen e r h := by
    rw [← List.append_assoc]
    exact (load_field (u := le 8 e.ino ++ le 8 0) (le_length 2 r)).trans
      (congrArg some (unle_le_of_lt h))

def sysGetdirentries := getdirentries bsdDirent

def sysGetdirentries64 := getdirentries bsdDirent64

/-- The names in a buffer, from `pos` on up to `ret`, stepping by `d_reclen`. -/
def decode (L : Layout) (ibuf : Bytes) (ret : ℕ) : ℕ → ℕ → Option (List Bytes)
  | 0, pos => if pos < ret then none else some []
  | fuel + 1, pos =>
    if pos < ret then do
      let name ← str 0 ibuf (pos + L.nameOff)
      let reclen ← load 2 ibuf (pos + L.reclenOff)
      let names ← decode L ibuf ret fuel (pos + reclen)
      return name :: names
    else some []

/-- The names a caller reads with one buffer after the other, up to the call that returns 0. -/
def listing (L : Layout) (call : Bytes → Option ℤ → List Entry → Option Result) :
    List Bytes → List Entry → Option (List Bytes)
  | [], _ => none
  | ibuf :: ibufs, dir => do
    let r ← call ibuf none dir
    if r.ret = 0 then return []
    let names ← decode L r.ibuf r.ret.toNat r.ret.toNat 0
    let more ← listing L call ibufs r.dir
    return names ++ more

end Darling.Getdirentries
