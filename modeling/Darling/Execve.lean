import Darling.CArray
import Darling.FileTree
import Mathlib.Data.Int.Basic

/-!
# `process/execve.c`

A file that starts with `#!`, or with text, is run by an interpreter: its first line is cut into the
interpreter and an argument in place, and a new argument vector is built in front of the old one.  A
`char*` is the string it points to, and `none` in a vector is `NULL`.
-/

namespace Darling.Execve

open CArray

def newline : Byte := '\n'.toUInt8

def isspace (c : Byte) : Bool := c = 32 || (9 ≤ c && c ≤ 13)

def istext (c : Byte) : Bool := 0x20 ≤ c && c < 0x7F

structure Shebang where
  cells : Bytes
  ret : ℕ
  cells_length : cells.length = 256
  ret_le : ret ≤ 256

def hashBang : Bytes := "#!".toList.map Char.toUInt8

def binSh : Bytes := "#!/bin/sh\n".toList.map Char.toUInt8

def scriptCells (b : Shebang) : Option (Option Bytes) :=
  if 4 ≤ b.ret then
    if b.cells.take 2 = hashBang then some (some b.cells)
    else if (b.cells.take 4).all istext then (strcpy 0 b.cells 0 binSh).map some
    else some none
  else some none

/-- The line, which ends in a `NUL` now, cut into `interp` and `arg`. -/
def cutTerminated (cells : Bytes) : Option (Bytes × Option Bytes) := do
  let blanks ← scan isspace (cells.drop 2)
  let interp := 2 + blanks
  let i ← scan (fun c => !isspace c && c ≠ 0) (cells.drop interp)
  if (← cells[interp + i]?) = 0 then
    return (← str 0 cells interp, none)
  else
    let cells ← store cells (interp + i) 0
    let blanks ← scan (fun c => isspace c && c ≠ 0) (cells.drop (interp + i + 1))
    let arg := interp + i + 1 + blanks
    if (← cells[arg]?) = 0 then return (← str 0 cells interp, none)
    else return (← str 0 cells interp, some (← str 0 cells arg))

def cutLine (cells : Bytes) (ret : ℕ) : Option (Option (Bytes × Option Bytes)) :=
  match (cells.take ret).idxOf? newline with
  | none => some none
  | some nl => do
    let cells ← store cells nl 0
    return some (← cutTerminated cells)

/-- What a script is run by; the outer `none` inside is a file that is none, the inner one a script
whose first line does not end in the buffer. -/
def interpreter (b : Shebang) : Option (Option (Option (Bytes × Option Bytes))) := do
  match ← scriptCells b with
  | none => return none
  | some cells => return some (← cutLine cells b.ret)

def buildArgv (fill : Option Bytes) (interp : Bytes) (arg : Option Bytes) (fname : Bytes)
    (argvp : List (Option Bytes)) : Option (List (Option Bytes)) := do
  let len := (← scan Option.isSome argvp) + 1
  let modargvp := List.replicate (len + 2) fill
  let modargvp ← store modargvp 0 (some interp)
  let (i, modargvp) ←
    match arg with
    | none => some (1, modargvp)
    | some arg => (store modargvp 1 (some arg)).map fun m => (2, m)
  let modargvp ← store modargvp i (some fname)
  (List.range' 1 len).foldlM (fun m j => do store m (i + j) (← argvp[j]?)) modargvp

/-- `vchroot_expand` of a path, and what opening the file and reading from it gives. -/
structure Files where
  expand : Bytes → Except ℤ Bytes
  read : Except ℤ Shebang

def enoexec : ℤ := 8

/-- `sys_execve` up to the call of Linux's: the path and the vector that it gets. -/
def sysExecve (errno : ℤ → ℤ) (files : Files) (fill : Option Bytes) (fname : Bytes)
    (argvp : List (Option Bytes)) : Option (Except ℤ (Bytes × List (Option Bytes))) :=
  match files.expand fname with
  | .error ret => some (.error (errno ret))
  | .ok path =>
    match files.read with
    | .error ret => some (.error ret)
    | .ok shebang => do
      match ← interpreter shebang with
      | none => some (.ok (path, argvp))
      | some none => some (.error (-enoexec))
      | some (some (interp, arg)) =>
        let modargvp ← buildArgv fill interp arg fname argvp
        match files.expand interp with
        | .error ret => some (.error ret)
        | .ok path => some (.ok (path, modargvp))

def Shebang.Holds (b : Shebang) (file : Bytes) : Prop :=
  b.ret = min 256 file.length ∧ b.cells.take b.ret = file.take 256

/-- The first word of a line, and what is left behind the blanks that follow it. -/
def words (line : Bytes) : Bytes × Option Bytes :=
  let s := line.dropWhile isspace
  let rest := (s.dropWhile (!isspace ·)).dropWhile isspace
  (s.takeWhile (!isspace ·), if rest = [] then none else some rest)

end Darling.Execve
