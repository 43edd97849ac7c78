import Darling.CArray
import Darling.FileTree
import Mathlib.Data.Int.Notation

/-!
# The start of an ELF program

`processEnvVariable` and the stack that `run` prepares, from `libelfloader/loader.c`, with words of
64 bits.  A store outside of its block ends in `none`.  Memory is there when it is asked for.
-/

namespace Darling.ElfLoader

open CArray

def systemRoot : Bytes := ascii "/Volumes/SystemRoot".toList

def homeVar : Bytes := ascii "HOME=".toList

def linuxHome : Bytes := ascii "/LinuxHome".toList

def symlinkPath (block h : Bytes) : Option Bytes := do
  let block ← strcpy 0 block 0 h
  let block ← strcat 0 block linuxHome
  str 0 block 0

def rewriteHome (home var : Bytes) : Option Bytes → Option Bytes
  | none => some var
  | some text => do
    let len := min text.length (512 - 1)
    let home ← blit home 0 (text.take len)
    let home ← store home len 0
    if home.take systemRoot.length = systemRoot then
      let home ← strcpy 0 home 0 homeVar
      let home ← move home 5 systemRoot.length (len + 2 - (systemRoot.length + 1))
      str 0 home 0
    else some var

/-- `malloc` tells what a new block of some size holds. -/
def processEnvVariable (malloc : (n : ℕ) → { b : Bytes // b.length = n })
    (readlink : Bytes → Option Bytes) (var : Bytes) : Option Bytes :=
  if homeVar <+: var then do
    let h := var.drop 5
    let path ← symlinkPath (malloc (h.length + 10)) h
    rewriteHome (malloc 512) var (readlink path)
  else some var

/-- The addresses of the arguments and of the random bytes, and `struct loader_context`. -/
structure Image where
  dummy : ℕ
  pointer1 : ℕ
  pointer2 : ℕ
  entropy : ℕ
  execPhstart : ℕ
  execPhentsize : ℕ
  execPhnum : ℕ
  execEntry : ℕ
  interpBase : ℕ

def Image.auxv (p : Image) : List (ℕ × ℕ) :=
  [(3, p.execPhstart), (4, p.execPhentsize), (5, p.execPhnum), (9, p.execEntry), (7, p.interpBase),
    (6, 4096), (8, 0), (25, p.entropy), (0, 0)]

def ptrcount (envp : List ℕ) : ℕ :=
  let n := 10 * 2 + 1 + 4 + envp.length + 1
  if n % 2 = 0 then n + 1 else n

/-- What is stored, one word after the other; `process` is `processEnvVariable`, on addresses. -/
def Image.words (p : Image) (process : ℕ → ℕ) (envp : List ℕ) : List ℕ :=
  [3, p.dummy, p.pointer1, p.pointer2, 0] ++ (envp.map process ++ (0 ::
    p.auxv.flatMap fun e => [e.1, e.2]))

/-- `stack[pos++] = x` for each word; `stack` counts from the start of the mapping. -/
def push (stack : ℤ) : List ℕ → ℕ → List ℕ → Option (List ℕ)
  | [], _, mem => some mem
  | x :: xs, pos, mem =>
    if 0 ≤ stack + pos then (store mem (stack + pos).toNat x).bind (push stack xs (pos + 1))
    else none

/-- The stack pointer, in words from the start of the mapping, and what is in the mapping. -/
def run (p : Image) (process : ℕ → ℕ) (envp : List ℕ) (stackmem : List ℕ) : Option (ℤ × List ℕ) :=
  let stack : ℤ := 2048 - 1 - ptrcount envp
  (push stack (p.words process envp) 0 stackmem).map (stack, ·)

end Darling.ElfLoader
